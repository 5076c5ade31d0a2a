import ProcLang.Proofs.Lowering.Activation
import ProcLang.Proofs.Lowering.ProgramItems
import ProcLang.Proofs.Syntax.Interchange

/-!
# Storage for declarations

Lowering reserves storage for every declaration that it comes to, also for one that
stands inside a statement or the body of a procedure. The check of a tree and the list
of its globals stop at its items. So a program has storage for its globals, which are
checked and whose sizes are known, and for stray declarations, which are neither
(`Node.perm_staticStorage`).

A name is lowered as an array by the size of the global of that name
(`Context.decays_iff`). Storage that belongs to one global is therefore used as it was
declared, and a stray array is loaded from like a single word.
-/

set_option autoImplicit false

namespace ProcLang

/-! ## Globals and strays -/

namespace Node

/-- What an item declares below its top: it is reserved, and it is not among the
globals. -/
def stray : Node → List Declaration
  | .declarations _ | .declaration _ => []
  | node => node.itemStorage

/-- What is declared inside the statements and procedures of a program. -/
def strays (root : Node) : List Declaration :=
  root.leaves.flatMap stray

/-- What storage is reserved for in a program, in order. -/
def staticStorage (root : Node) : List Declaration :=
  root.leaves.flatMap itemStorage

/-- The globals of a program are what its items declare at their top. -/
theorem globalDeclarations_eq (root : Node) :
    root.globalDeclarations = root.leaves.flatMap declared := by
  induction root with
  | program items ih =>
      rw [globalDeclarations, leaves]
      induction items with
      | nil => rfl
      | cons item rest ihRest =>
          rw [globalDeclarationsAll, leavesAll, List.flatMap_append, ih item List.mem_cons_self,
            ihRest fun other member => ih other (.tail _ member)]
  | _ => exact (List.append_nil _).symm

theorem itemStorage_eq {node : Node} (leaf : node.isProgram = false) :
    node.itemStorage = node.declared ++ node.stray := by
  cases node with
  | program items => cases leaf
  | declarations declared => simp [itemStorage, storage, reached, Node.declared, stray]
  | _ => rfl

/-- **Storage is reserved for the globals and for the strays.** -/
theorem perm_staticStorage (root : Node) :
    root.staticStorage.Perm (root.globalDeclarations ++ root.strays) := by
  have split : root.staticStorage = root.leaves.flatMap fun leaf => leaf.declared ++ leaf.stray :=
    List.flatMap_congr fun leaf member => itemStorage_eq (root.isProgram_of_mem_leaves leaf member)
  rw [split, globalDeclarations_eq]
  exact (List.flatMap_append_perm _ _ _).symm

/-! ## Checked trees -/

theorem pos_of_checkDeclarations {list : List Declaration}
    (checked : checkDeclarations list = .ok ()) :
    ∀ declared ∈ list, 0 < declared.words := by
  unfold checkDeclarations at checked
  split at checked
  next => cases checked
  next none =>
    intro declared member
    have sized := List.find?_eq_none.mp none declared member
    simpa [Nat.pos_iff_ne_zero] using sized

theorem pos_of_checkAll {items : List Node}
    (each : ∀ item ∈ items, item.check = .ok () →
      ∀ declared ∈ item.globalDeclarations, 0 < declared.words)
    (checked : checkAll items = .ok ()) :
    ∀ declared ∈ globalDeclarationsAll items, 0 < declared.words := by
  induction items with
  | nil => simp [globalDeclarationsAll]
  | cons item rest ih =>
      rw [checkAll] at checked
      cases first : item.check with
      | error fault =>
          rw [first] at checked
          cases checked
      | ok _ =>
          rw [first] at checked
          exact List.forall_mem_append.mpr ⟨each item List.mem_cons_self first,
            ih (fun other member => each other (.tail _ member)) checked⟩

/-- The globals of a checked tree have at least one word. -/
theorem pos_of_check (node : Node) (checked : node.check = .ok ()) :
    ∀ declared ∈ node.globalDeclarations, 0 < declared.words := by
  induction node with
  | program items ih => exact pos_of_checkAll ih checked
  | declarations declared => exact pos_of_checkDeclarations checked
  | declaration declared => exact pos_of_checkDeclarations checked
  | _ => simp [globalDeclarations]

theorem check_of_ofJsonText {text : String} {root : Node} (read : ofJsonText text = .ok root) :
    root.check = .ok () := by
  unfold ofJsonText at read
  split at read
  next => cases read
  next node _ =>
    split at read
    next checked =>
      cases read
      exact checked
    next => cases read

/-- The text of a tree that passes the checks is read, if it is not too deep. -/
theorem ofJsonText_of_check {root : Node} (checked : root.check = .ok ())
    (shallow : root.toJson.depth ≤ maxOpen) : ofJsonText root.jsonText = .ok root := by
  have read := @ofJsonText_jsonText root "" rfl
  rwa [String.append_empty, if_pos shallow, checked] at read

end Node

/-! ## References -/

theorem Scope.find_eq_none {scope : Scope} {name : String}
    (noLocal : ∀ declared ∈ scope.locals, declared.name ≠ name)
    (noParameter : name ∉ scope.parameters) : scope.find name = none := by
  have absent : ∀ locals : List Declaration, (∀ declared ∈ locals, declared.name ≠ name) →
      ∀ shift, findLocal name scope.parameters shift locals = none := by
    intro locals
    induction locals with
    | nil => exact fun _ _ => findParameter_of_not_mem noParameter
    | cons declared rest ih =>
        intro others shift
        rw [findLocal, if_neg (others declared List.mem_cons_self)]
        exact ih (fun other member => others other (.tail _ member)) _
  exact absent scope.locals noLocal 0

namespace Context

/-- A name is not that of a local or a parameter. -/
structure IsFree (context : Context) (name : String) : Prop where
  noLocal : ∀ declared ∈ context.scope.locals, declared.name ≠ name
  noParameter : name ∉ context.scope.parameters

theorem isFree_fresh (annotate : Bool) (globals : List Declaration) (label : Nat) (name : String) :
    (fresh annotate globals label).IsFree name :=
  ⟨fun _ member => absurd member List.not_mem_nil, List.not_mem_nil⟩

/-- The value of a name is lowered to the address of its storage, without a load. -/
def Decays (context : Context) (name : String) : Prop :=
  ∃ emitted, (Node.reference name).lower.value.run context = .ok emitted ∧
    emitted.output.code = [.loadAddress (.general context.cursor) (Label.global name).text]

/-- **The size of a global decides how its name is lowered.** -/
theorem decays_iff {context : Context} {name : String} (free : context.IsFree name) :
    context.Decays name ↔ (context.globalSize? name).any fun size => 1 < size.toNat := by
  have lives : context.resolve name = .global name (context.globalSize? name) := by
    rw [resolve, Scope.find_eq_none free.noLocal free.noParameter]
    rfl
  have ran : (Node.reference name).lower.value.run context =
      .ok ⟨(), context, Plan.reference context.resolve name context.cursor context.pushed⟩ :=
    (Emitter.ends_reference name context).yields (Emitter.finishes_reference name)
  have code : (Plan.reference context.resolve name context.cursor context.pushed).code =
      .loadAddress (.general context.cursor) (Label.global name).text ::
        if (context.globalSize? name).any fun size => 1 < size.toNat then []
        else [.load (.general context.cursor) (.general context.cursor) 0] := by
    cases array : (context.globalSize? name).any fun size => 1 < size.toNat <;>
      simp [Plan.reference, Plan.addressOf, lives, Address.isArray, array]
  unfold Decays
  rw [ran]
  simp [code]

end Context

/-! ## Consistent storage -/

namespace Node

variable {root : Node} {declared : Declaration}

/-- Storage is reserved for one declaration of a name only. -/
def DeclaresOnce (root : Node) (declared : Declaration) : Prop :=
  (root.staticStorage.filter fun other => other.name == declared.name) = [declared]

/-- The storage of a declaration is not empty. If it is the only one of its name, the
name is lowered as an array exactly if it was declared as one, wherever no local and no
parameter has the name. -/
def Consistent (root : Node) (declared : Declaration) : Prop :=
  0 < declared.words ∧ (root.DeclaresOnce declared →
    ∀ context : Context, context.globals = root.globalDeclarations.reverse →
      context.IsFree declared.name → (context.Decays declared.name ↔ 1 < declared.words))

theorem mem_filter_name {list : List Declaration} (member : declared ∈ list) :
    declared ∈ list.filter fun other => other.name == declared.name :=
  List.mem_filter.mpr ⟨member, beq_self_eq_true _⟩

/-- The only declaration of a name is a global or a stray. -/
theorem DeclaresOnce.cases (once : root.DeclaresOnce declared) :
    ((root.globalDeclarations.filter fun other => other.name == declared.name) = [declared] ∧
      declared ∉ root.strays) ∨
      (root.globalDeclarations.filter fun other => other.name == declared.name) = [] := by
  have perm := root.perm_staticStorage.filter fun other => other.name == declared.name
  rw [once, List.filter_append] at perm
  rcases List.append_eq_singleton_iff.mp (List.singleton_perm.mp perm).symm with
    ⟨globals, -⟩ | ⟨globals, strays⟩
  · exact .inr globals
  · refine .inl ⟨globals, fun member => ?_⟩
    have listed := mem_filter_name member
    rw [strays] at listed
    cases listed

/-- The size that a context knows for a name, given the globals of the name. -/
theorem globalSize?_eq {context : Context}
    (known : context.globals = root.globalDeclarations.reverse) (name : String) :
    context.globalSize? name =
      ((root.globalDeclarations.filter fun other => other.name == name).reverse.head?).map
        Declaration.size := by
  rw [Context.globalSize?, known, ← List.filter_reverse, List.head?_filter]

/-- **The globals of a checked tree are used as they were declared.** -/
theorem consistent_of_mem_globals (checked : root.check = .ok ())
    (member : declared ∈ root.globalDeclarations) : root.Consistent declared := by
  refine ⟨root.pos_of_check checked declared member, fun once context known free => ?_⟩
  have listed := mem_filter_name member
  rcases once.cases with ⟨only, -⟩ | none
  · rw [Context.decays_iff free, globalSize?_eq known, only]
    simp [Declaration.words]
  · rw [none] at listed
    cases listed

/-- A stray declaration is used as it was declared exactly if it is a single word, or
its name is declared more than once. -/
theorem consistent_iff_of_mem_strays (member : declared ∈ root.strays) :
    root.Consistent declared ↔
      0 < declared.words ∧ (root.DeclaresOnce declared → declared.words = 1) := by
  refine and_congr_right fun positive => forall_congr' fun once => ?_
  rcases once.cases with ⟨-, other⟩ | none
  · exact absurd member other
  · have loads : ∀ context : Context, context.globals = root.globalDeclarations.reverse →
        context.IsFree declared.name → ¬ context.Decays declared.name := by
      intro context known free
      rw [Context.decays_iff free, globalSize?_eq known, none]
      simp
    constructor
    · intro same
      have outside := Context.isFree_fresh false root.globalDeclarations.reverse 0 declared.name
      have single : ¬ 1 < declared.words := fun array =>
        loads _ rfl outside ((same _ rfl outside).mpr array)
      omega
    · intro single context known free
      exact ⟨fun decays => absurd decays (loads context known free), fun array => by omega⟩

end Node

/-- **Storage of a program that was read from JSON.** It is reserved for the globals,
which the check has seen, and for the declarations inside statements and procedures,
which it has not. All items are lowered with the sizes of the globals alone. So the
globals are used as they were declared; and this holds of all storage exactly if no
stray declaration is empty, and every stray that is the only one of its name is a single
word. -/
theorem ofJsonText_storage {text : String} {root : Node} {options : LoweringOptions}
    {program : LoweredProgram} (read : Node.ofJsonText text = .ok root)
    (lowered : lowerProgram options root = .ok program) :
    (∃ outputs, Itemized options.annotate root.globalDeclarations.reverse 0 root.leaves outputs ∧
      program.instructions = startCode options.entry ++ outputs.flatMap Output.code ++
        (Plan.reserve root.staticStorage).data ++ [.label Label.stackBegin.text]) ∧
    root.staticStorage.Perm (root.globalDeclarations ++ root.strays) ∧
    (∀ declared ∈ root.globalDeclarations, root.Consistent declared) ∧
    ((∀ declared ∈ root.staticStorage, root.Consistent declared) ↔
      ∀ declared ∈ root.strays,
        0 < declared.words ∧ (root.DeclaresOnce declared → declared.words = 1)) := by
  have checked := Node.check_of_ofJsonText read
  have perm := root.perm_staticStorage
  have globals : ∀ declared ∈ root.globalDeclarations, root.Consistent declared :=
    fun _ member => Node.consistent_of_mem_globals checked member
  refine ⟨?_, perm, globals, fun all declared member => ?_, fun strays declared member => ?_⟩
  · obtain ⟨outputs, itemized, whole⟩ := lowerProgram_itemized lowered
    rw [itemized.data_eq root.isProgram_of_mem_leaves] at whole
    exact ⟨outputs, itemized, whole⟩
  · exact (Node.consistent_iff_of_mem_strays member).mp
      (all declared (perm.mem_iff.mpr (List.mem_append_right _ member)))
  · rcases List.mem_append.mp (perm.mem_iff.mp member) with global | stray
    · exact globals declared global
    · exact (Node.consistent_iff_of_mem_strays stray).mpr (strays declared stray)

/-- A global array beside a single word inside a procedure. -/
theorem ofJsonText_storage_word :
    let root : Node := .program [.declarations [⟨"g", 3⟩], .procedure ⟨"main", []⟩ []
      (.block [.declaration ⟨"s", 1⟩, .call "write" [.reference "g"]])]
    Node.ofJsonText root.jsonText = .ok root ∧
      (∃ program, lowerProgram .standard root = .ok program) ∧
      root.globalDeclarations = [⟨"g", 3⟩] ∧ root.strays = [⟨"s", 1⟩] ∧
      ∀ declared ∈ root.staticStorage, root.Consistent declared := by
  intro root
  have read : Node.ofJsonText root.jsonText = .ok root :=
    Node.ofJsonText_of_check rfl (by decide)
  obtain ⟨program, lowered⟩ : ∃ program, lowerProgram .standard root = .ok program := ⟨_, rfl⟩
  refine ⟨read, ⟨program, lowered⟩, rfl, rfl, (ofJsonText_storage read lowered).2.2.2.mpr ?_⟩
  intro declared member
  obtain rfl : declared = ⟨"s", 1⟩ := List.mem_singleton.mp member
  exact ⟨by decide, fun _ => rfl⟩

/-- An array inside a procedure is reserved whole, and the only use of its name loads
its first word; and an empty declaration inside a statement is not refused. -/
theorem ofJsonText_storage_stray :
    let array : Node := .program [.procedure ⟨"main", []⟩ []
      (.block [.declarations [⟨"a", 5⟩], .call "write" [.reference "a"]])]
    let empty : Node := .program [.block [.declaration ⟨"z", 0⟩]]
    Node.ofJsonText array.jsonText = .ok array ∧
      (∃ program, lowerProgram .standard array = .ok program ∧ program.instructions =
        [.loadAddress .stack "l_stack_begin", .call "p_main", .halt, .label "p_main",
          .loadAddress (.general 3) "g_a", .load (.general 3) (.general 3) 0,
          .write (.general 3), .ret, .label "g_a", .reserve 5, .label "l_stack_begin"]) ∧
      array.DeclaresOnce ⟨"a", 5⟩ ∧ ¬ array.Consistent ⟨"a", 5⟩ ∧
      Node.ofJsonText empty.jsonText = .ok empty ∧ empty.staticStorage = [⟨"z", 0⟩] ∧
      ¬ empty.Consistent ⟨"z", 0⟩ := by
  intro array empty
  have once : array.DeclaresOnce ⟨"a", 5⟩ := rfl
  have stray : (⟨"a", 5⟩ : Declaration) ∈ array.strays := List.mem_singleton_self _
  refine ⟨Node.ofJsonText_of_check rfl (by decide), ⟨_, rfl, rfl⟩, once, fun same => ?_,
    Node.ofJsonText_of_check rfl (by decide), rfl, fun same => absurd same.1 (by decide)⟩
  exact absurd (((Node.consistent_iff_of_mem_strays stray).mp same).2 once) (by decide)

end ProcLang
