import ProcLang.Proofs.Lowering.Invocation

/-!
# Where a lowered program lies

The storage of the globals lies behind the code, one global after the other, and
the stack begins behind the last of them. In a memory that has room for the
program and its stack, no two words share a place, so the globals and the stack
make a layout (`Node.layout`), and the machine carries the program
(`Node.carries`).
-/

set_option autoImplicit false

namespace ProcLang

/-! ## Reserved storage -/

/-- The storage of a global stands at a position of the program. -/
structure Machine.Reserves (machine : Machine) (declared : Declaration) (position : Nat) :
    Prop where
  label : machine.program[position]? = some (.label (Label.global declared.name).text)
  words : machine.program[position + 1]? = some (.reserve declared.size)
  target : machine.target? (Label.global declared.name).text = some position

namespace Machine.Reserves

variable {machine : Machine} {declared declared' : Declaration}
  {position position' other index index' : Nat}

theorem globalAddress_eq (reserves : machine.Reserves declared position) :
    machine.globalAddress declared.name = machine.link position :=
  labelAddress_eq_link reserves.target

/-- The words of a global end before anything that stands behind it. -/
theorem address_add_words_le (reserves : machine.Reserves declared position)
    (later : position + 1 < other) :
    machine.address position + declared.words ≤ machine.address other := by
  have start : machine.address (position + 1) = machine.address position :=
    address_succ reserves.label
  rw [← start]
  exact address_add_extent_le reserves.words later

theorem toNat_word (fits : machine.address machine.program.length < 2 ^ 32)
    (reserves : machine.Reserves declared position) (inside : index < declared.words) :
    (above (machine.globalAddress declared.name) index).toNat =
      machine.address position + index := by
  have last : position + 1 < machine.program.length :=
    (List.getElem?_eq_some_iff.mp reserves.words).1
  have ends := reserves.address_add_words_le last
  rw [above, reserves.globalAddress_eq, BitVec.toNat_add, toNat_link fits (by omega),
    BitVec.toNat_ofNat, Nat.mod_eq_of_lt (by omega), Nat.mod_eq_of_lt (by omega)]

/-- Where the storage of one global ends before that of another, no word of them
shares an address. -/
theorem word_ne (fits : machine.address machine.program.length < 2 ^ 32)
    (reserves : machine.Reserves declared position)
    (reserves' : machine.Reserves declared' position') (before : position < position')
    (inside : index < declared.words) (inside' : index' < declared'.words) :
    above (machine.globalAddress declared.name) index ≠
      above (machine.globalAddress declared'.name) index' := by
  intro same
  have numbers := congrArg BitVec.toNat same
  rw [toNat_word fits reserves inside, toNat_word fits reserves' inside'] at numbers
  have apart : position + 1 ≠ position' := by
    rintro rfl
    cases reserves.words.symm.trans reserves'.label
  have := reserves.address_add_words_le (Nat.lt_of_le_of_ne before apart)
  omega

/-- **No two words of globals share an address.** -/
theorem word_injective (fits : machine.address machine.program.length < 2 ^ 32)
    (reserves : machine.Reserves declared position)
    (reserves' : machine.Reserves declared' position')
    (inside : index < declared.words) (inside' : index' < declared'.words)
    (same : above (machine.globalAddress declared.name) index =
      above (machine.globalAddress declared'.name) index') :
    declared.name = declared'.name ∧ index = index' := by
  rcases Nat.lt_trichotomy position position' with before | rfl | after
  · exact absurd same (word_ne fits reserves reserves' before inside inside')
  · have numbers := congrArg BitVec.toNat same
    rw [toNat_word fits reserves inside, toNat_word fits reserves' inside'] at numbers
    have texts := Option.some.inj (reserves.label.symm.trans reserves'.label)
    exact ⟨Label.global.inj (Label.text_injective (Instruction.label.inj texts)), by omega⟩
  · exact absurd same.symm (word_ne fits reserves' reserves after inside' inside)

end Machine.Reserves

/-! ## Programs in memory -/

/-- If no two globals share a name, their order does not matter. -/
theorem find?_reverse_of_nodup {declarations : List Declaration}
    (nodup : (declarations.map Declaration.name).Nodup) (name : String) :
    (declarations.reverse.find? fun declared => declared.name == name) =
      declarations.find? fun declared => declared.name == name := by
  induction declarations with
  | nil => rfl
  | cons declared rest ih =>
      rw [List.map_cons, List.nodup_cons] at nodup
      rw [List.reverse_cons, List.find?_append, ih nodup.2, List.find?_cons]
      split
      next same =>
        have absent : (rest.find? fun declared => declared.name == name) = none := by
          rw [List.find?_eq_none]
          intro other member
          have different : other.name ≠ declared.name := fun equal =>
            nodup.1 (equal ▸ List.mem_map_of_mem member)
          simpa [← beq_iff_eq.mp same] using different
        simp [absent, same]
      next different => simp [different]

theorem Procedure.output_reverse {declarations : List Declaration}
    (nodup : (declarations.map Declaration.name).Nodup) (procedure : Procedure) (annotate : Bool)
    (label : Nat) :
    procedure.output annotate declarations.reverse label =
      procedure.output annotate declarations label := by
  have same : procedure.scope.resolve declarations.reverse =
      procedure.scope.resolve declarations := by
    funext name
    rw [Scope.resolve, Scope.resolve, find?_reverse_of_nodup nodup]
  rw [output, output, same]

/-- The machine runs a lowered program, and its memory has room for the program
and its stack. -/
structure Machine.Loads (machine : Machine) (annotate : Bool) (entry : String) (items : List Node)
    (room : Nat) : Prop where
  program : machine.program = Node.listing annotate entry items
  shape : ∀ item ∈ items, item.Item
  procedures : (Node.procedureNamesAll items).Nodup
  globals : ((Node.globalDeclarationsAll items).map Declaration.name).Nodup
  fits : machine.address machine.program.length + room < 2 ^ 32

namespace Machine.Loads

variable {machine : Machine} {annotate : Bool} {entry : String} {items : List Node} {room : Nat}

theorem program_fits (loads : machine.Loads annotate entry items room) :
    machine.address machine.program.length < 2 ^ 32 :=
  Nat.lt_of_le_of_lt (Nat.le_add_right _ _) loads.fits

/-- Whatever stands in the program is found there by its labels. -/
theorem spans (loads : machine.Loads annotate entry items room)
    {front code back : List Instruction} (placed : machine.program = front ++ code ++ back) :
    machine.everywhere.Spans front.length code (front.length + code.length) := by
  have nodup : (definedLabels machine.program).Nodup := by
    rw [loads.program]
    exact Node.nodup_definedLabels entry loads.shape loads.procedures loads.globals
  refine Watch.spans_of_placed placed (fun _ _ _ => trivial) fun name member => ?_
  have stands : .label name ∈ machine.program := by
    rw [placed]
    exact List.mem_append_left _ (List.mem_append_right _ member)
  exact count_label_eq_one nodup stands

theorem exists_reserves (loads : machine.Loads annotate entry items room) {declared : Declaration}
    (member : declared ∈ Node.globalDeclarationsAll items) :
    ∃ position, machine.Reserves declared position := by
  obtain ⟨before, after, split⟩ := List.append_of_mem member
  have placed : machine.program =
      (startCode entry ++ (Node.programOutput annotate items).code ++ (Plan.reserve before).data) ++
        [.label (Label.global declared.name).text, .reserve declared.size] ++
        ((Plan.reserve after).data ++ [.label Label.stackBegin.text]) := by
    rw [loads.program, Node.listing, Node.programOutput, Node.data_itemsOutput loads.shape, split]
    simp [Plan.reserve]
  obtain ⟨label, -, target, words, -⟩ := loads.spans placed
  exact ⟨_, label, words, target _ rfl⟩

theorem start (loads : machine.Loads annotate entry items room) :
    machine.everywhere.Spans 0 (startCode entry) 3 := by
  have placed : machine.program = [] ++ startCode entry ++
      ((Node.programOutput annotate items).code ++ ((Node.programOutput annotate items).data ++
        [.label Label.stackBegin.text])) := by
    rw [loads.program, Node.listing, List.nil_append, List.append_assoc, List.append_assoc]
  exact loads.spans placed

/-- The stack begins at the end of the program. -/
theorem toNat_stackBegin (loads : machine.Loads annotate entry items room) :
    (machine.labelAddress Label.stackBegin.text).toNat =
      machine.address machine.program.length := by
  have placed : machine.program = (startCode entry ++ (Node.programOutput annotate items).code ++
      (Node.programOutput annotate items).data) ++ [.label Label.stackBegin.text] ++ [] := by
    rw [loads.program, Node.listing, List.append_nil]
  obtain ⟨label, -, target, -⟩ := loads.spans placed
  have length := congrArg List.length placed
  rw [List.append_nil, List.length_append, List.length_singleton] at length
  have address : machine.labelAddress Label.stackBegin.text = machine.link _ :=
    labelAddress_eq_link (target _ rfl)
  rw [address, toNat_link loads.program_fits (by omega), length]
  exact (address_succ label).symm

theorem toNat_stack (loads : machine.Loads annotate entry items room) {height : Nat}
    (inside : height < room) :
    (above (machine.labelAddress Label.stackBegin.text) height).toNat =
      machine.address machine.program.length + height := by
  have fits := loads.fits
  rw [above, BitVec.toNat_add, loads.toNat_stackBegin, BitVec.toNat_ofNat,
    Nat.mod_eq_of_lt (by omega), Nat.mod_eq_of_lt (by omega)]

/-- Globals end before the stack begins. -/
theorem word_ne_stack (loads : machine.Loads annotate entry items room) {declared : Declaration}
    {position index height : Nat} (reserves : machine.Reserves declared position)
    (inside : index < declared.words) (low : height < room) :
    above (machine.globalAddress declared.name) index ≠
      above (machine.labelAddress Label.stackBegin.text) height := by
  intro same
  have numbers := congrArg BitVec.toNat same
  rw [reserves.toNat_word loads.program_fits inside, loads.toNat_stack low] at numbers
  have := reserves.address_add_words_le (List.getElem?_eq_some_iff.mp reserves.words).1
  omega

/-- The places of globals and stack. -/
def layout (loads : machine.Loads annotate entry items room) : Layout machine where
  globals := Node.globalDeclarationsAll items
  bottom := machine.labelAddress Label.stackBegin.text
  room := room
  small := Nat.lt_of_le_of_lt (Nat.le_add_left _ _) loads.fits
  distinct := by
    intro declared declared' index index' member member' inside inside' same
    obtain ⟨position, reserves⟩ := loads.exists_reserves member
    obtain ⟨position', reserves'⟩ := loads.exists_reserves member'
    exact reserves.word_injective loads.program_fits reserves' inside inside' same
  apart := by
    intro declared index height member inside low
    obtain ⟨position, reserves⟩ := loads.exists_reserves member
    exact loads.word_ne_stack reserves inside low

/-- The code of every procedure stands in the program. -/
theorem exists_spans (loads : machine.Loads annotate entry items room) {procedure : Procedure}
    (member : procedure ∈ Node.proceduresAll items) :
    ∃ label start finish,
      machine.everywhere.Spans start
        (procedure.output annotate (Node.globalDeclarationsAll items) label).code finish ∧
      ∀ event ∈ (procedure.output annotate (Node.globalDeclarationsAll items) label).events,
        event ∈ (Node.programOutput annotate items).events := by
  obtain ⟨front, back, label, code, events⟩ := @Node.exists_segment annotate
    (Node.globalDeclarationsAll items).reverse items procedure loads.shape member 0
  rw [Procedure.output_reverse loads.globals] at code events
  have placed : machine.program = (startCode entry ++ front) ++
      (procedure.output annotate (Node.globalDeclarationsAll items) label).code ++
      (back ++ ((Node.programOutput annotate items).data ++ [.label Label.stackBegin.text])) := by
    rw [loads.program, Node.listing, show (Node.programOutput annotate items).code = _ from code]
    simp only [List.append_assoc]
  exact ⟨label, _, _, loads.spans placed, events⟩

theorem carries (loads : machine.Loads annotate entry items room)
    (closed : ∀ name, machine.external name = false)
    (unclamped : Unclamped (Node.programOutput annotate items).events)
    (resolved : ∀ procedure ∈ (Node.program items).procedures,
      procedure.body.resolves
        (procedure.scope.lookup? (Node.program items).globalDeclarations)
        (Node.program items).defines) :
    loads.layout.Carries annotate (.program items) where
  closed := closed
  fits := loads.program_fits
  globals := rfl
  shape procedure := Node.shape_of_mem_procedures loads.shape
  resolved := resolved
  placed := by
    intro procedure member
    obtain ⟨label, start, finish, spans, events⟩ := loads.exists_spans member
    exact ⟨label, start, finish, spans, fun event listed => unclamped event (events event listed)⟩

end Machine.Loads

end ProcLang
