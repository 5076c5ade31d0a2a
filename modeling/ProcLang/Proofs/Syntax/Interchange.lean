import Mathlib
import ProcLang.Proofs.Json.RoundTrip
import ProcLang.Proofs.Syntax.Induction
import ProcLang.Syntax.Interchange

/-!
# Trees written as JSON and read back

A node reads back from the value it is written as, with every field found under
its name and every word within its range, exactly if the budget of the reader
covers the depth of the value (`Node.readsWithin`). The budget is spent as the
writer opens arrays and objects, so both are counted by one combinator,
`Json.within`, and its laws: an opened array or object takes one from each side,
and parts that are read side by side need the greater of their depths.

With the text in between (`Json.Written.parse_pretty`) this is the round trip of
a tree: `Node.ofJsonText_jsonText` says what is read, and
`Node.jsonText_roundTrip` when it is the tree.
-/

set_option autoImplicit false

namespace ProcLang

namespace Json

/-! ## Depth -/

@[simp]
theorem depth_null : depth .null = 0 := by simp [depth]

@[simp]
theorem depth_integer (value : Int) : depth (.integer value) = 0 := by simp [depth]

@[simp]
theorem depth_text (content : String) : depth (.text content) = 0 := by
  simp [text, depth]

@[simp]
theorem depth_array (items : List Json) : depth (.array items) = depthItems items + 1 := by
  rw [depth]

/-- The members of a record, with their names as keys. -/
theorem record_eq (members : List (String × Json)) :
    record members = .object (members.map fun member => (some member.1, member.2)) := rfl

/-- A record opens one object around its fields. -/
@[simp]
theorem depth_record (members : List (String × Json)) :
    depth (.record members) = depthItems (members.map Prod.snd) + 1 := by
  rw [record_eq, depth]
  congr 1
  induction members with
  | nil => rfl
  | cons member members ih => simp [depthMembers, depthItems, ih]

theorem tagged_eq (tag : String) (payload : Json) :
    tagged tag payload = .object [(some tag, payload)] := rfl

@[simp]
theorem depth_tagged (tag : String) (payload : Json) :
    depth (.tagged tag payload) = depth payload + 1 := by
  simp [tagged, depthItems]

/-! ## Fields -/

/-- A field of a record whose names differ is found by its name. -/
theorem field?_of_mem {members : List (String × Json)} (distinct : (members.map Prod.fst).Nodup)
    {name : String} {value : Json} (listed : (name, value) ∈ members) :
    field? name (members.map fun member => (some member.1, member.2)) = some (some value) := by
  have single : (members.map fun member => (some member.1, member.2)).filter
      (fun member => member.1 == some name) = [(some name, value)] := by
    induction members with
    | nil => simp at listed
    | cons first members ih =>
        obtain ⟨fresh, distinct⟩ := List.nodup_cons.mp distinct
        rcases List.mem_cons.mp listed with rfl | later
        · simp only [List.map_cons, List.filter_cons_of_pos, BEq.rfl, List.cons.injEq, true_and,
            List.filter_eq_nil_iff, List.mem_map]
          rintro _ ⟨member, among, rfl⟩
          have later : member.1 ∈ members.map Prod.fst := List.mem_map_of_mem among
          have other : member.1 ≠ name := fun same => fresh (same ▸ later)
          simpa using other
        · have other : first.1 ≠ name := by
            intro same
            exact fresh (same ▸ List.mem_map_of_mem later)
          simpa [other] using ih distinct later
  simp [field?, single]

/-- All fields of a record whose names differ are found, in order. -/
theorem fields?_record {members : List (String × Json)} {names : List String}
    (named : members.map Prod.fst = names) (distinct : names.Nodup) :
    fields? names (.record members) = some (members.map fun member => some member.2) := by
  subst named
  have found : ∀ among ⊆ members,
      (among.map Prod.fst).mapM (field? · (members.map fun member => (some member.1, member.2))) =
        some (among.map fun member => some member.2) := by
    intro among listed
    induction among with
    | nil => rfl
    | cons first among ih =>
        have leads := field?_of_mem distinct (listed List.mem_cons_self)
        have follow := ih fun member later => listed (.tail _ later)
        simp [leads, follow]
  have all : (members.map fun member => (some member.1, member.2)).all
      (fun member => member.1.isSome) = true := by simp
  rw [record_eq, fields?, if_pos all, found members (List.Subset.refl _)]

/-! ## What fits a budget -/

/-- The value, if something of the given depth may be opened. -/
def within {α : Type} (depth budget : Nat) (value : α) : Option α :=
  if depth ≤ budget then some value else none

section Within

variable {α β : Type} (depth budget : Nat) (value : α)

@[simp]
theorem within_zero : within 0 budget value = some value :=
  if_pos (Nat.zero_le budget)

@[simp]
theorem within_succ_zero : within (depth + 1) 0 value = none :=
  if_neg (Nat.not_succ_le_zero depth)

@[simp]
theorem within_succ_succ : within (depth + 1) (budget + 1) value = within depth budget value := by
  simp [within]

@[simp]
theorem within_bind_some (make : α → β) :
    (within depth budget value).bind (fun found => some (make found)) =
      within depth budget (make value) := by
  unfold within
  split <;> rfl

/-- Parts that are read one after the other are as deep as the deeper one. -/
@[simp]
theorem within_bind_within (depth' : Nat) (make : α → β) :
    (within depth budget value).bind (fun found => within depth' budget (make found)) =
      within (max depth depth') budget (make value) := by
  unfold within
  by_cases first : depth ≤ budget
  · simp [first]
  · simp [first]

end Within

/-- A reader finds a value in what a writer made of it, if its budget allows the
depth. -/
def ReadsWithin {α : Type} (read : Nat → Json → Option α) (write : α → Json) (value : α) : Prop :=
  ∀ budget, read budget (write value) = within (write value).depth budget value

theorem ReadsWithin.mapM {α : Type} {read : Nat → Json → Option α} {write : α → Json}
    {values : List α} (each : ∀ value ∈ values, ReadsWithin read write value) (budget : Nat) :
    (values.map write).mapM (read budget) =
      within (depthItems (values.map write)) budget values := by
  induction values with
  | nil => simp [depthItems]
  | cons value values ih =>
      have leads := each value List.mem_cons_self budget
      have follow := ih fun value listed => each value (.tail _ listed)
      simp [depthItems, leads, follow]

end Json

open Json

/-! ## Words and texts -/

theorem Json.int32?_toInt (value : Int32) : int32? (.integer value.toInt) = some value := by
  have low := value.le_toInt
  have high := value.toInt_lt
  rw [int32?, if_pos (by omega), Int32.ofInt_toInt]

theorem Json.uint32?_toNat (value : UInt32) : uint32? (.integer value.toNat) = some value := by
  have high := value.toNat_lt
  rw [uint32?, if_pos (by omega), Int.toNat_natCast, UInt32.ofNat_toNat]

theorem Json.text?_text (content : String) : text? (.text content) = some content := rfl

theorem Json.operator?_text {α : Type} (ofName? : String → Option α) (budget : Nat)
    (name : String) : operator? ofName? budget (.text name) = ofName? name := rfl

theorem Json.texts?_array (contents : List String) (budget : Nat) :
    texts? budget (.array (contents.map .text)) =
      within (depthItems (contents.map .text) + 1) budget contents := by
  have each : ∀ content ∈ contents, ReadsWithin (fun _ => text?) .text content := by
    intro content _ budget
    simp [text?_text]
  cases budget with
  | zero => simp [texts?]
  | succ budget => simp [texts?, ReadsWithin.mapM each budget]

/-! ## The parts of a node -/

theorem Declaration.readsWithin (declared : Declaration) :
    ReadsWithin Declaration.ofJson? Declaration.toJson declared := by
  intro budget
  cases budget with
  | zero => simp [Declaration.ofJson?, Declaration.toJson]
  | succ budget =>
      simp [Declaration.ofJson?, Declaration.toJson, fields?_record, depthItems, text?_text,
        Declaration.words, uint32?_toNat]

theorem Declaration.listOfJson?_array (declared : List Declaration) (budget : Nat) :
    Declaration.listOfJson? budget (.array (declared.map Declaration.toJson)) =
      within (depthItems (declared.map Declaration.toJson) + 1) budget declared := by
  have each := ReadsWithin.mapM fun one (_ : one ∈ declared) => Declaration.readsWithin one
  cases budget with
  | zero => simp [Declaration.listOfJson?]
  | succ budget => simp [Declaration.listOfJson?, each budget]

theorem Header.readsWithin (heading : Header) :
    ReadsWithin Header.ofJson? Header.toJson heading := by
  intro budget
  cases budget with
  | zero => simp [Header.ofJson?, Header.toJson]
  | succ budget =>
      simp [Header.ofJson?, Header.toJson, fields?_record, depthItems, text?_text, texts?_array]

/-! ## Nodes -/

namespace Node

theorem toJsonAll_eq (nodes : List Node) : toJsonAll nodes = nodes.map toJson := by
  induction nodes with
  | nil => rfl
  | cons node nodes ih => rw [toJsonAll, ih, List.map_cons]

/-- A node is written as an object, so never as the null of a missing part. -/
theorem exists_toJson_eq_object (node : Node) : ∃ members, toJson node = .object members := by
  induction node <;> simp only [toJson, tagged_eq] <;> exact ⟨_, rfl⟩

/-- A node opens one object around its data. -/
theorem readsWithin_of_tagged {node : Node} {tag : String} {payload : Json}
    (written : toJson node = .tagged tag payload)
    (opened : ∀ budget, ofJson? (budget + 1) (.tagged tag payload) =
      within payload.depth budget node) : ReadsWithin ofJson? toJson node := by
  intro budget
  rw [written, depth_tagged]
  cases budget with
  | zero => simp [ofJson?]
  | succ budget => rw [opened, within_succ_succ]

/-- A node whose data is an array or an object opens two at least. -/
theorem readsWithin_of_payload {node : Node} {tag : String} {payload : Json} {depth : Nat}
    (written : toJson node = .tagged tag payload) (deep : payload.depth = depth + 1)
    (one : ofJson? 1 (.tagged tag payload) = none)
    (more : ∀ budget, ofJson? (budget + 2) (.tagged tag payload) = within depth budget node) :
    ReadsWithin ofJson? toJson node := by
  refine readsWithin_of_tagged written fun budget => ?_
  rw [deep]
  cases budget with
  | zero => rw [one, within_succ_zero]
  | succ budget => rw [more, within_succ_succ]

/-- A tree is read back from what it is written as, exactly if it is not too deep. -/
theorem readsWithin (node : Node) : ReadsWithin ofJson? toJson node := by
  induction node with
  | program items ih =>
      refine readsWithin_of_payload (by rw [toJson, toJsonAll_eq]) (depth_array _)
        (by simp [ofJson?, tagged_eq]) fun budget => ?_
      simp [ofJson?, tagged_eq, items?, ReadsWithin.mapM ih budget]
  | procedure heading locals body ihBody =>
      refine readsWithin_of_payload (by rw [toJson]) (depth_record _)
        (by simp [ofJson?, tagged_eq]) fun budget => ?_
      simp [ofJson?, tagged_eq, fields?_record, depthItems, heading.readsWithin budget,
        Declaration.listOfJson?_array, ihBody budget]
  | header heading =>
      refine readsWithin_of_tagged (by rw [toJson]) fun budget => ?_
      simp [ofJson?, tagged_eq, heading.readsWithin budget]
  | declarations declared =>
      refine readsWithin_of_tagged (by rw [toJson]) fun budget => ?_
      simp [ofJson?, tagged_eq, Declaration.listOfJson?_array]
  | declaration declared =>
      refine readsWithin_of_tagged (by rw [toJson]) fun budget => ?_
      simp [ofJson?, tagged_eq, declared.readsWithin budget]
  | block statements ih =>
      refine readsWithin_of_payload (by rw [toJson, toJsonAll_eq]) (depth_array _)
        (by simp [ofJson?, tagged_eq]) fun budget => ?_
      simp [ofJson?, tagged_eq, items?, ReadsWithin.mapM ih budget]
  | call name arguments ih =>
      refine readsWithin_of_payload (by rw [toJson, toJsonAll_eq]) (depth_record _)
        (by simp [ofJson?, tagged_eq]) fun budget => ?_
      cases budget with
      | zero => simp [ofJson?, tagged_eq, depthItems]
      | succ budget =>
          simp [ofJson?, tagged_eq, fields?_record, depthItems, text?_text, items?,
            ReadsWithin.mapM ih budget]
  | assign target value ihTarget ihValue =>
      refine readsWithin_of_payload (by rw [toJson]) (depth_record _)
        (by simp [ofJson?, tagged_eq]) fun budget => ?_
      simp [ofJson?, tagged_eq, fields?_record, depthItems, ihTarget budget, ihValue budget]
  | branch condition consequent ihCondition ihConsequent =>
      refine readsWithin_of_payload (by rw [toJson]) (depth_record _)
        (by simp [ofJson?, tagged_eq]) fun budget => ?_
      simp [ofJson?, tagged_eq, fields?_record, depthItems, ihCondition budget,
        ihConsequent budget]
  | branchElse condition consequent alternative ihCondition ihConsequent ihAlternative =>
      refine readsWithin_of_payload (by rw [toJson]) (depth_record _)
        (by simp [ofJson?, tagged_eq]) fun budget => ?_
      have inner := ihAlternative budget
      obtain ⟨members, object⟩ := exists_toJson_eq_object alternative
      rw [object] at inner ⊢
      simp [ofJson?, tagged_eq, fields?_record, depthItems, ihCondition budget,
        ihConsequent budget, inner]
  | loop condition body ihCondition ihBody =>
      refine readsWithin_of_payload (by rw [toJson]) (depth_record _)
        (by simp [ofJson?, tagged_eq]) fun budget => ?_
      simp [ofJson?, tagged_eq, fields?_record, depthItems, ihCondition budget, ihBody budget]
  | binary op left right ihLeft ihRight =>
      refine readsWithin_of_payload (by rw [toJson]) (depth_record _)
        (by simp [ofJson?, tagged_eq]) fun budget => ?_
      simp [ofJson?, tagged_eq, fields?_record, depthItems, operator?_text,
        BinaryOperator.ofJsonName?_jsonName, ihLeft budget, ihRight budget]
  | unary op operand ihOperand =>
      refine readsWithin_of_payload (by rw [toJson]) (depth_record _)
        (by simp [ofJson?, tagged_eq]) fun budget => ?_
      simp [ofJson?, tagged_eq, fields?_record, depthItems, operator?_text,
        UnaryOperator.ofJsonName?_jsonName, ihOperand budget]
  | constant value =>
      refine readsWithin_of_tagged (by rw [toJson]) fun budget => ?_
      simp [ofJson?, tagged_eq, int32?_toInt]
  | reference name =>
      refine readsWithin_of_tagged (by rw [toJson]) fun budget => ?_
      simp [ofJson?, tagged_eq, text?_text]

/-! ## Texts of trees -/

theorem written_declared (declared : List Declaration) :
    (Json.array (declared.map Declaration.toJson)).Written := by
  refine .array ?_
  intro item listed
  obtain ⟨one, -, rfl⟩ := List.mem_map.mp listed
  exact .record (by simp [Written.text, Written.integer])

theorem written_heading (heading : Header) : heading.toJson.Written := by
  have parameters : (Json.array (heading.parameters.map .text)).Written := by
    refine .array ?_
    intro item listed
    obtain ⟨parameter, -, rfl⟩ := List.mem_map.mp listed
    exact .text parameter
  exact .record (by simp [Written.text, parameters])

theorem written_toJsonAll {nodes : List Node} (each : ∀ node ∈ nodes, (toJson node).Written) :
    (Json.array (toJsonAll nodes)).Written := by
  rw [toJsonAll_eq]
  refine .array ?_
  intro item listed
  obtain ⟨node, among, rfl⟩ := List.mem_map.mp listed
  exact each node among

/-- A tree is written in strings that denote a text and in integers. -/
theorem written_toJson (node : Node) : (toJson node).Written := by
  induction node with
  | program items ih =>
      rw [toJson]
      exact .tagged _ (written_toJsonAll ih)
  | procedure heading locals body ihBody =>
      rw [toJson]
      exact .tagged _ (.record (by simp [written_heading, written_declared, ihBody]))
  | header heading =>
      rw [toJson]
      exact .tagged _ (written_heading heading)
  | declarations declared =>
      rw [toJson]
      exact .tagged _ (written_declared declared)
  | declaration declared =>
      rw [toJson]
      exact .tagged _ (.record (by simp [Written.text, Written.integer]))
  | block statements ih =>
      rw [toJson]
      exact .tagged _ (written_toJsonAll ih)
  | call name arguments ih =>
      rw [toJson]
      exact .tagged _ (.record (by simp [Written.text, written_toJsonAll ih]))
  | assign target value ihTarget ihValue =>
      rw [toJson]
      exact .tagged _ (.record (by simp [ihTarget, ihValue]))
  | branch condition consequent ihCondition ihConsequent =>
      rw [toJson]
      exact .tagged _ (.record (by simp [ihCondition, ihConsequent, Written.null]))
  | branchElse condition consequent alternative ihCondition ihConsequent ihAlternative =>
      rw [toJson]
      exact .tagged _ (.record (by simp [ihCondition, ihConsequent, ihAlternative]))
  | loop condition body ihCondition ihBody =>
      rw [toJson]
      exact .tagged _ (.record (by simp [ihCondition, ihBody]))
  | binary op left right ihLeft ihRight =>
      rw [toJson]
      exact .tagged _ (.record (by simp [Written.text, ihLeft, ihRight]))
  | unary op operand ihOperand =>
      rw [toJson]
      exact .tagged _ (.record (by simp [Written.text, ihOperand]))
  | constant value =>
      rw [toJson]
      exact .tagged _ (.integer _)
  | reference name =>
      rw [toJson]
      exact .tagged _ (.text name)

/-- What reading gives back: the tree, unless it is too deep or fails the checks. -/
theorem ofJsonText_jsonText (node : Node) {blank : String}
    (spaces : skipSpace blank.toList = []) :
    ofJsonText (node.jsonText ++ blank) =
      if node.toJson.depth ≤ maxOpen then
        match node.check with
        | .ok () => .ok node
        | .error fault => .error fault.diagnostic
      else .error .malformedTree := by
  rw [ofJsonText, jsonText, node.written_toJson.parse_pretty spaces, Option.bind_some,
    node.readsWithin maxOpen, within]
  by_cases shallow : node.toJson.depth ≤ maxOpen
  · rcases checked : node.check with fault | passed <;> simp [shallow, checked]
  · simp [shallow]

/-- The text of a tree is read as that tree exactly if the tree passes the checks
and its text never has more than 127 arrays and objects open. Otherwise the text
is refused, as no tree at all or for the fault that the checks find. -/
theorem jsonText_roundTrip (tree : Node) :
    (ofJsonText tree.jsonText = .ok tree ↔ tree.check = .ok () ∧ tree.toJson.depth ≤ 127) ∧
    (ofJsonText tree.jsonText = .ok tree ∨
      (127 < tree.toJson.depth ∧ ofJsonText tree.jsonText = .error .malformedTree) ∨
      ∃ fault, tree.check = .error fault ∧
        ofJsonText tree.jsonText = .error (.grammatical TreeFault.location fault.message)) := by
  have read := @ofJsonText_jsonText tree "" rfl
  rw [String.append_empty, maxOpen] at read
  by_cases shallow : tree.toJson.depth ≤ 127
  · rw [if_pos shallow] at read
    rcases checked : tree.check with fault | passed
    · rw [checked] at read
      exact ⟨by simp [read], .inr (.inr ⟨fault, rfl, read⟩)⟩
    · rw [checked] at read
      exact ⟨by simp [read, shallow], .inl read⟩
  · rw [if_neg shallow] at read
    exact ⟨by simp [read, shallow], .inr (.inl ⟨Nat.lt_of_not_le shallow, read⟩)⟩

end Node

end ProcLang
