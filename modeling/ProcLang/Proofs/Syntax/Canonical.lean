import ProcLang.Proofs.Syntax.Interchange

/-!
# The canonical text of a tree

A tree can be spelled in many ways, of which the writer chooses one. The chosen text is
no deeper than any other: whatever is looked at for a part of a tree lies inside what
is looked at for the whole, and an array or object is opened for everything for which the
writer opens one (`Node.ofJson?_shallow`). So a text that is read gives a tree that is
read back from its canonical text (`Node.ofJsonText_stable`).
-/

set_option autoImplicit false

namespace ProcLang

namespace Json

/-! ## What lies inside a value -/

theorem depth_le_depthItems {items : List Json} {item : Json} (listed : item ∈ items) :
    item.depth ≤ depthItems items := by
  induction items with
  | nil => cases listed
  | cons first rest ih =>
      rw [depthItems]
      rcases List.mem_cons.mp listed with rfl | later
      · exact Nat.le_max_left _ _
      · exact Nat.le_trans (ih later) (Nat.le_max_right _ _)

theorem depth_le_depthMembers {members : List (Option String × Json)} {key : Option String}
    {value : Json} (listed : (key, value) ∈ members) : value.depth ≤ depthMembers members := by
  induction members with
  | nil => cases listed
  | cons first rest ih =>
      rw [depthMembers]
      rcases List.mem_cons.mp listed with rfl | later
      · exact Nat.le_max_left _ _
      · exact Nat.le_trans (ih later) (Nat.le_max_right _ _)

theorem depth_object_singleton (key : Option String) (payload : Json) :
    depth (.object [(key, payload)]) = payload.depth + 1 := by
  simp [depth, depthMembers]

/-- A field that is found stands among the members. -/
theorem mem_of_field? {name : String} {members : List (Option String × Json)} {value : Json}
    (found : field? name members = some (some value)) : ∃ key, (key, value) ∈ members := by
  unfold field? at found
  split at found
  next => cases found
  next key payload single =>
    obtain rfl : payload = value := by simpa using found
    have listed : (key, payload) ∈ members.filter fun member => member.1 == some name := by
      simp [single]
    exact ⟨key, (List.mem_filter.mp listed).1⟩
  next => cases found

/-- What is read from each of some values comes from one of them. -/
theorem exists_of_mem_mapM {α β : Type} {read : α → Option β} {sources : List α} {values : List β}
    (done : sources.mapM read = some values) {value : β} (listed : value ∈ values) :
    ∃ source ∈ sources, read source = some value := by
  induction sources generalizing values with
  | nil =>
      obtain rfl : [] = values := by simpa using done
      cases listed
  | cons source sources ih =>
      simp only [List.mapM_cons, Option.bind_eq_bind, Option.pure_def, Option.bind_eq_some_iff,
        Option.some.injEq] at done
      obtain ⟨first, here, others, later, rfl⟩ := done
      rcases List.mem_cons.mp listed with rfl | listed
      · exact ⟨source, List.mem_cons_self, here⟩
      · obtain ⟨other, member, found⟩ := ih later listed
        exact ⟨other, .tail _ member, found⟩

/-- **A field lies inside the value it is a field of**, whether by its name or by its
place. -/
theorem depth_lt_of_fields? {names : List String} {payload : Json} {values : List (Option Json)}
    (read : fields? names payload = some values) {value : Json} (listed : some value ∈ values) :
    value.depth < payload.depth := by
  unfold fields? at read
  split at read
  next items =>
    split at read
    next =>
      obtain rfl := Option.some.inj read
      have member : value ∈ items := by simpa using listed
      rw [depth_array]
      exact Nat.lt_succ_of_le (depth_le_depthItems member)
    next => cases read
  next members =>
    split at read
    next =>
      obtain ⟨name, -, found⟩ := exists_of_mem_mapM read listed
      obtain ⟨key, member⟩ := mem_of_field? found
      rw [depth]
      exact Nat.lt_succ_of_le (depth_le_depthMembers member)
    next => cases read
  next => cases read

/-! ## Readers of parts -/

/-- Whatever is read is written no deeper than what it was read from, nor than the reader
was allowed to go. -/
def ReadsShallow {α : Type} (read : Nat → Json → Option α) (write : α → Json) (budget : Nat) :
    Prop :=
  ∀ source value, read budget source = some value →
    (write value).depth ≤ min budget source.depth

theorem ReadsShallow.mapM {α : Type} {read : Nat → Json → Option α} {write : α → Json}
    {budget : Nat} (shallow : ReadsShallow read write budget) {items : List Json} {values : List α}
    (done : items.mapM (read budget) = some values) :
    depthItems (values.map write) ≤ min budget (depthItems items) := by
  have bounded : ∀ written : List Json,
      (∀ item ∈ written, item.depth ≤ min budget (depthItems items)) →
        depthItems written ≤ min budget (depthItems items) := by
    intro written each
    induction written with
    | nil => exact Nat.zero_le _
    | cons item rest ih =>
        rw [depthItems]
        exact Nat.max_le.mpr ⟨each item List.mem_cons_self, ih fun other member =>
          each other (.tail _ member)⟩
  refine bounded _ fun item listed => ?_
  obtain ⟨value, member, rfl⟩ := List.mem_map.mp listed
  obtain ⟨source, among, found⟩ := exists_of_mem_mapM done member
  have inner := shallow source value found
  have inside := depth_le_depthItems among
  omega

theorem texts?_shallow (budget : Nat) :
    ReadsShallow texts? (fun contents => .array (contents.map .text)) budget := by
  intro source contents read
  unfold texts? at read
  split at read
  next budget items =>
    have flat : ReadsShallow (fun _ => text?) text budget := by
      intro item content _
      rw [depth_text]
      exact Nat.zero_le _
    have inner := flat.mapM read
    rw [depth_array, depth_array]
    omega
  next => cases read

end Json

open Json

theorem Declaration.ofJson?_shallow (budget : Nat) :
    ReadsShallow Declaration.ofJson? Declaration.toJson budget := by
  intro source declared read
  unfold Declaration.ofJson? at read
  split at read
  next budget name size found =>
    have inside : name.depth < source.depth := depth_lt_of_fields? found (by simp)
    have flat : declared.toJson.depth = 1 := by simp [Declaration.toJson, depthItems]
    omega
  next => cases read

theorem Declaration.listOfJson?_shallow (budget : Nat) :
    ReadsShallow Declaration.listOfJson?
      (fun declared => .array (declared.map Declaration.toJson)) budget := by
  intro source declared read
  unfold Declaration.listOfJson? at read
  split at read
  next budget items =>
    have inner := (Declaration.ofJson?_shallow budget).mapM read
    rw [depth_array, depth_array]
    omega
  next => cases read

theorem Header.ofJson?_shallow (budget : Nat) :
    ReadsShallow Header.ofJson? Header.toJson budget := by
  intro source heading read
  unfold Header.ofJson? at read
  split at read
  next budget name parameters found =>
    simp only [Option.bind_eq_bind, Option.pure_def, Option.bind_eq_some_iff,
      Option.some.injEq] at read
    obtain ⟨title, -, names, listed, rfl⟩ := read
    have inside : parameters.depth < source.depth := depth_lt_of_fields? found (by simp)
    have inner : (Json.array (names.map .text)).depth ≤ min budget parameters.depth :=
      texts?_shallow budget _ _ listed
    simp only [Header.toJson, depth_record, List.map_cons, List.map_nil, depthItems, depth_text]
    omega
  next => cases read

/-! ## Trees -/

namespace Node

section Payload

variable {budget : Nat} {key : Option String} {tag : String} {payload : Json}

/-- A tree is no deeper than its form if its data is no deeper than the payload. -/
theorem depth_tagged_le {written : Json} (inner : written.depth ≤ min budget payload.depth) :
    (Json.tagged tag written).depth ≤ min (budget + 1) (Json.object [(key, payload)]).depth := by
  rw [depth_tagged, depth_object_singleton]
  omega

/-- A tree with fields is no deeper than its form if each field lies inside the payload. -/
theorem depth_tagged_record_le {members : List (String × Json)} (nonempty : members ≠ [])
    (each : ∀ member ∈ members, member.2.depth < min (budget + 1) payload.depth) :
    (Json.tagged tag (.record members)).depth ≤
      min (budget + 2) (Json.object [(key, payload)]).depth := by
  refine depth_tagged_le ?_
  have bounded : ∀ written : List (String × Json),
      (∀ member ∈ written, member.2.depth < min (budget + 1) payload.depth) → written ≠ [] →
        depthItems (written.map Prod.snd) < min (budget + 1) payload.depth := by
    intro written each nonempty
    induction written with
    | nil => exact absurd rfl nonempty
    | cons member rest ih =>
        rw [List.map_cons, depthItems]
        have here := each member List.mem_cons_self
        cases rest with
        | nil => simpa [depthItems] using here
        | cons second rest =>
            exact Nat.max_lt.mpr ⟨here, ih (fun other listed => each other (.tail _ listed))
              (List.cons_ne_nil _ _)⟩
  rw [depth_record]
  exact bounded members each nonempty

variable {names : List String} {values : List (Option Json)} {part : Json}
  (found : payload.fields? names = some values) (listed : some part ∈ values)

include found listed

/-- What is read from a field lies inside the payload. -/
theorem depth_field_lt {written : Json} (inner : written.depth ≤ min budget part.depth) :
    written.depth < min (budget + 1) payload.depth := by
  have inside := depth_lt_of_fields? found listed
  omega

/-- So does what opens nothing. -/
theorem depth_scalar_lt {written : Json} (flat : written.depth = 0) :
    written.depth < min (budget + 1) payload.depth :=
  depth_field_lt found listed (flat ▸ Nat.zero_le _)

end Payload

/-- Trees that are read from an array are no deeper as an array. -/
theorem depth_toJsonAll_le {budget : Nat} {payload : Json} {sources : List Json}
    {nodes : List Node} (shallow : ReadsShallow ofJson? toJson budget)
    (opened : payload.items? = some sources)
    (done : sources.mapM (ofJson? budget) = some nodes) :
    (Json.array (toJsonAll nodes)).depth ≤ min (budget + 1) payload.depth := by
  have inner := shallow.mapM done
  obtain rfl : payload = .array sources := by
    cases payload <;> simp_all [items?]
  rw [depth_array, depth_array, toJsonAll_eq]
  omega

/-- **The canonical form of a tree is no deeper than any form it is read from.** -/
theorem ofJson?_shallow (budget : Nat) : ReadsShallow ofJson? toJson budget := by
  induction budget using Nat.strongRecOn with
  | ind budget ih =>
    intro source node
    -- Each reader that is run on the way has succeeded.
    fun_cases ofJson? budget source <;> intro read <;>
      simp only [Option.bind_eq_bind, Option.pure_def, Option.bind_eq_some_iff, Option.some.injEq,
        reduceCtorEq] at read
    case case1 budget payload =>
      obtain ⟨heading, found, rfl⟩ := read
      rw [toJson]
      exact depth_tagged_le (Header.ofJson?_shallow budget _ _ found)
    case case2 budget payload =>
      obtain ⟨declared, found, rfl⟩ := read
      rw [toJson]
      exact depth_tagged_le (Declaration.listOfJson?_shallow budget _ _ found)
    case case3 budget payload =>
      obtain ⟨declared, found, rfl⟩ := read
      rw [toJson]
      exact depth_tagged_le (Declaration.ofJson?_shallow budget _ _ found)
    case case4 budget payload =>
      obtain ⟨value, -, rfl⟩ := read
      rw [toJson]
      exact depth_tagged_le (by simp)
    case case5 budget payload =>
      obtain ⟨name, -, rfl⟩ := read
      rw [toJson]
      exact depth_tagged_le (by simp)
    case case6 budget payload =>
      obtain ⟨sources, opened, nodes, done, rfl⟩ := read
      rw [toJson]
      exact depth_tagged_le (depth_toJsonAll_le (ih budget (by omega)) opened done)
    case case7 budget payload =>
      obtain ⟨sources, opened, nodes, done, rfl⟩ := read
      rw [toJson]
      exact depth_tagged_le (depth_toJsonAll_le (ih budget (by omega)) opened done)
    case case8 budget payload heading locals body found =>
      obtain ⟨heading, first, locals, second, body, third, rfl⟩ := read
      rw [toJson]
      refine depth_tagged_record_le (List.cons_ne_nil _ _) ?_
      simp only [List.forall_mem_cons]
      exact ⟨depth_field_lt found (by simp) (Header.ofJson?_shallow budget _ _ first),
        depth_field_lt found (by simp) (Declaration.listOfJson?_shallow budget _ _ second),
        depth_field_lt found (by simp) (ih budget (by omega) _ _ third), by simp⟩
    case case10 budget payload name arguments found =>
      obtain ⟨name, -, sources, opened, nodes, done, rfl⟩ := read
      rw [toJson]
      refine depth_tagged_record_le (List.cons_ne_nil _ _) ?_
      simp only [List.forall_mem_cons]
      exact ⟨depth_scalar_lt found List.mem_cons_self (depth_text name),
        depth_field_lt found (by simp) (depth_toJsonAll_le (ih budget (by omega)) opened done),
        by simp⟩
    case case12 budget payload target value found =>
      obtain ⟨target, first, value, second, rfl⟩ := read
      rw [toJson]
      refine depth_tagged_record_le (List.cons_ne_nil _ _) ?_
      simp only [List.forall_mem_cons]
      exact ⟨depth_field_lt found (by simp) (ih budget (by omega) _ _ first),
        depth_field_lt found (by simp) (ih budget (by omega) _ _ second), by simp⟩
    case case14 budget payload condition consequent alternative found =>
      obtain ⟨condition, first, consequent, second, read⟩ := read
      have test := depth_field_lt found (by simp) (ih budget (by omega) _ _ first)
      have taken := depth_field_lt found (by simp) (ih budget (by omega) _ _ second)
      have missing : (toJson (.branch condition consequent none)).depth ≤
          min (budget + 2) (Json.object [(some "If", payload)]).depth := by
        rw [toJson]
        refine depth_tagged_record_le (List.cons_ne_nil _ _) ?_
        simp only [List.forall_mem_cons]
        exact ⟨test, taken, depth_scalar_lt found List.mem_cons_self depth_null, by simp⟩
      split at read
      next =>
        obtain rfl := Option.some.inj read
        exact missing
      next =>
        obtain rfl := Option.some.inj read
        exact missing
      next alternative _ =>
        obtain ⟨skipped, third, same⟩ := Option.bind_eq_some_iff.mp read
        obtain rfl := Option.some.inj same
        rw [toJson]
        refine depth_tagged_record_le (List.cons_ne_nil _ _) ?_
        simp only [List.forall_mem_cons]
        exact ⟨test, taken, depth_field_lt found (by simp) (ih budget (by omega) _ _ third),
          by simp⟩
    case case16 budget payload condition body found =>
      obtain ⟨condition, first, body, second, rfl⟩ := read
      rw [toJson]
      refine depth_tagged_record_le (List.cons_ne_nil _ _) ?_
      simp only [List.forall_mem_cons]
      exact ⟨depth_field_lt found (by simp) (ih budget (by omega) _ _ first),
        depth_field_lt found (by simp) (ih budget (by omega) _ _ second), by simp⟩
    case case18 budget payload op left right found =>
      obtain ⟨op, -, left, first, right, second, rfl⟩ := read
      rw [toJson]
      refine depth_tagged_record_le (List.cons_ne_nil _ _) ?_
      simp only [List.forall_mem_cons]
      exact ⟨depth_scalar_lt found List.mem_cons_self (depth_text _),
        depth_field_lt found (by simp) (ih budget (by omega) _ _ first),
        depth_field_lt found (by simp) (ih budget (by omega) _ _ second), by simp⟩
    case case20 budget payload op operand found =>
      obtain ⟨op, -, operand, first, rfl⟩ := read
      rw [toJson]
      refine depth_tagged_record_le (List.cons_ne_nil _ _) ?_
      simp only [List.forall_mem_cons]
      exact ⟨depth_scalar_lt found List.mem_cons_self (depth_text _),
        depth_field_lt found (by simp) (ih budget (by omega) _ _ first), by simp⟩

/-! ## Texts -/

/-- **The canonical text of a tree that was read is read as that tree.** It is no deeper
than the text the tree was read from, so it never opens too many arrays and objects. -/
theorem ofJsonText_stable {source : String} {tree : Node} (read : ofJsonText source = .ok tree) :
    ofJsonText tree.jsonText = .ok tree ∧
      ∃ value, Json.parse source = some value ∧ tree.toJson.depth ≤ min 127 value.depth := by
  unfold ofJsonText at read
  split at read
  next => cases read
  next node found =>
    split at read
    next checked =>
      obtain rfl := Except.ok.inj read
      obtain ⟨value, parsed, taken⟩ := Option.bind_eq_some_iff.mp found
      have shallow := ofJson?_shallow maxOpen value node taken
      refine ⟨?_, value, parsed, shallow⟩
      have again := @ofJsonText_jsonText node "" rfl
      rwa [String.append_empty, checked, if_pos (Nat.le_trans shallow (Nat.min_le_left _ _))]
        at again
    next => cases read

/-- A program in which a declaration is an array of its fields, an operator is the key of
a null, and a choice has its fields out of order, no alternative, and a field that is not
known and goes deeper than all others. -/
def looseJson : Json :=
  .tagged "Global" (.array [
    .tagged "DeclVar" (.array [.text "x", .integer 2]),
    .tagged "If" (.record [
      ("if_true", .tagged "OpList" (.array [])),
      ("note", .array [.array [.array [.array [.null]]]]),
      ("cond", .tagged "Unop" (.array [.tagged "Minus" .null, .tagged "Refname" (.text "x")]))])])

/-- The tree of the program. -/
def looseTree : Node :=
  .program [.declaration ⟨"x", 2⟩, .branch (.unary .minus (.reference "x")) (.block []) none]

/-- The program is read from its own text, and again from the canonical text, which is
another one and less deep. -/
theorem ofJsonText_stable_loose :
    ofJsonText looseJson.pretty = .ok looseTree ∧ looseTree.toJson.depth < looseJson.depth ∧
      ofJsonText looseTree.jsonText = .ok looseTree := by
  have written : looseJson.Written := by
    have declared : (Json.array [.text "x", .integer 2]).Written :=
      .array (by simp [Written.text, Written.integer])
    have taken : (Json.array []).Written := .array (by simp)
    have note : (Json.array [.array [.array [.array [.null]]]]).Written := by
      refine .array (List.forall_mem_singleton.mpr (.array (List.forall_mem_singleton.mpr
        (.array ?_))))
      simp [Written.array, Written.null]
    have condition : (Json.array [.tagged "Minus" .null, .tagged "Refname" (.text "x")]).Written :=
      .array (by simp [Written.tagged, Written.null, Written.text])
    have choice : ∀ member ∈ [("if_true", Json.tagged "OpList" (.array [])),
        ("note", .array [.array [.array [.array [.null]]]]),
        ("cond", .tagged "Unop" (.array [.tagged "Minus" .null, .tagged "Refname" (.text "x")]))],
        member.2.Written := by
      simp [taken.tagged, note, condition.tagged]
    exact .tagged _ (.array (by simp [declared.tagged, (Written.record choice).tagged]))
  have parsed : Json.parse looseJson.pretty = some looseJson := by
    have again := @Written.parse_pretty looseJson written "" rfl
    rwa [String.append_empty] at again
  have read : ofJsonText looseJson.pretty = .ok looseTree := by
    rw [ofJsonText, parsed]
    rfl
  exact ⟨read, by decide, (ofJsonText_stable read).1⟩

end Node

end ProcLang
