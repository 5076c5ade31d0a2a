import ProcLang.Proofs.Assembly.Label
import ProcLang.Proofs.Assembly.Listing
import ProcLang.Proofs.Syntax.Induction
import ProcLang.Syntax.Outline

/-!
# What an outline tells

The text of an outline falls into lines, each line into its bars and its caption, and the
depths of the lines tell which lines are the parts of which. So the text tells the forest of
captions that it was made from (`Node.outlineText_eq_iff_outlines`), provided that names are
spelled like identifiers.

The forest of a tree (`Node.outlines`) has no node for a list: the members of a list are
parts of what holds the list.
-/

set_option autoImplicit false

namespace ProcLang

/-- A part of which each item has a property can be told from what follows it and starts
without the property. -/
theorem append_inj_of_head {α : Type} {p : α → Bool} {first first' rest rest' : List α}
    (all : ∀ item ∈ first, p item) (all' : ∀ item ∈ first', p item)
    (stop : ∀ item ∈ rest.head?, p item = false) (stop' : ∀ item ∈ rest'.head?, p item = false)
    (same : first ++ rest = first' ++ rest') : first = first' ∧ rest = rest' := by
  have taken := takeWhile_run all stop
  have taken' := takeWhile_run all' stop'
  rw [same] at taken
  exact ⟨taken.1.symm.trans taken'.1, taken.2.symm.trans taken'.2⟩

/-! ## Captions -/

/-- What a line of an outline says apart from its depth. -/
inductive Caption where
  | procedure
  | header (name : String)
  | parameter (name : String)
  | declaration (declared : Declaration)
  | call (name : String)
  | assign
  | branch
  | loop
  | binary (op : BinaryOperator)
  | unary (op : UnaryOperator)
  | constant (value : Int32)
  | reference (name : String)
  deriving DecidableEq, Repr, Inhabited

namespace BinaryOperator

theorem text_inj {first second : BinaryOperator} : first.text = second.text ↔ first = second := by
  cases first <;> cases second <;> simp [text]

theorem newline_not_mem_text (op : BinaryOperator) : '\n' ∉ op.text.toList := by
  cases op <;> simp [text]

end BinaryOperator

namespace UnaryOperator

theorem text_inj {first second : UnaryOperator} : first.text = second.text ↔ first = second := by
  cases first <;> cases second <;> simp [text]

theorem newline_not_mem_text (op : UnaryOperator) : '\n' ∉ op.text.toList := by
  cases op <;> simp [text]

end UnaryOperator

namespace Caption

/-- The wording of a caption. -/
def text : Caption → String
  | procedure => "procedure"
  | header name => "proc_header " ++ name
  | parameter name => "arg_list " ++ name
  | declaration declared =>
      "decl_var " ++ declared.name ++ " [ " ++ Decimal.text declared.words ++ " ]"
  | call name => "proc_call " ++ name
  | assign => "assign"
  | branch => "if"
  | loop => "while"
  | binary op => "binop " ++ op.text
  | unary op => "unop " ++ op.text
  | constant value => "constant " ++ Decimal.signedText value.toInt
  | reference name => "refname " ++ name

/-- The first word of a caption, which tells its kind. -/
def word : Caption → String
  | procedure => "procedure"
  | header _ => "proc_header"
  | parameter _ => "arg_list"
  | declaration _ => "decl_var"
  | call _ => "proc_call"
  | assign => "assign"
  | branch => "if"
  | loop => "while"
  | binary _ => "binop"
  | unary _ => "unop"
  | constant _ => "constant"
  | reference _ => "refname"

theorem takeWhile_text (caption : Caption) :
    caption.text.toList.takeWhile (· != ' ') = caption.word.toList := by
  cases caption <;> simp [text, word]

/-- A caption whose name is spelled like an identifier. -/
@[simp] def IsProper : Caption → Prop
  | header name | parameter name | call name | reference name => isIdentifier name
  | declaration declared => isIdentifier declared.name
  | procedure | assign | branch | loop | binary _ | unary _ | constant _ => True

variable {first second : Caption}

theorem text_injective (proper : first.IsProper) (proper' : second.IsProper)
    (same : first.text = second.text) : first = second := by
  have words : first.word = second.word := by
    rw [← String.toList_inj, ← takeWhile_text, ← takeWhile_text, same]
  have spelled : first.text.toList = second.text.toList := congrArg String.toList same
  cases first <;> cases second <;> simp [word] at words
  all_goals simp [text] at spelled
  case declaration.declaration declared declared' =>
    obtain ⟨name, size⟩ := append_inj_of_head (isNameChar_of_isIdentifier proper)
      (isNameChar_of_isIdentifier proper') (by simp; decide) (by simp; decide) spelled
    have words : declared.words = declared'.words :=
      Decimal.text_inj.mp (String.toList_inj.mp (by simpa using size))
    obtain ⟨first, _⟩ := declared
    obtain ⟨second, _⟩ := declared'
    rw [declaration.injEq, Declaration.mk.injEq]
    exact ⟨String.toList_inj.mp name, UInt32.toNat_inj.mp words⟩
  case binary.binary => rw [BinaryOperator.text_inj.mp (String.toList_inj.mp spelled)]
  case unary.unary => rw [UnaryOperator.text_inj.mp (String.toList_inj.mp spelled)]
  case constant.constant =>
    have value := Decimal.signedText_inj.mp (String.toList_inj.mp spelled)
    rw [Int32.toInt_inj.mp value]
  case header.header | parameter.parameter | call.call | reference.reference =>
    rw [String.toList_inj.mp spelled]
  all_goals rfl

theorem newline_not_mem_text {caption : Caption} (proper : caption.IsProper) :
    '\n' ∉ caption.text.toList := by
  cases caption with
  | header name | parameter name | call name | reference name =>
      have named := newline_not_mem_of_isNameChar (isNameChar_of_isIdentifier proper)
      simpa [text] using named
  | declaration declared =>
      have named := newline_not_mem_of_isNameChar (isNameChar_of_isIdentifier proper)
      simpa [text, Decimal.text] using named
  | binary op => simpa [text] using op.newline_not_mem_text
  | unary op => simpa [text] using op.newline_not_mem_text
  | _ => simp [text, Decimal.signedText]

end Caption

/-! ## Lines -/

namespace OutlineLine

/-- The line of a caption at some depth. -/
def ofCaption (line : Nat × Caption) : OutlineLine :=
  ⟨line.1, line.2.text⟩

/-- The characters in front of a caption. -/
def bars (depth : Nat) : List Char :=
  (List.replicate depth bar).flatMap String.toList

/-- Whether a character can stand in front of a caption. -/
def isBarChar (c : Char) : Bool :=
  c = '|' || c = ' '

theorem toList_text_ofCaption (line : Nat × Caption) :
    (ofCaption line).text.toList = bars line.1 ++ line.2.text.toList ++ ['\n'] := by
  simp [text, ofCaption, bars, String.toList_join]

theorem isBarChar_of_mem_bars {depth : Nat} {c : Char} (member : c ∈ bars depth) :
    isBarChar c := by
  obtain ⟨part, repeated, member⟩ := List.mem_flatMap.mp member
  rw [List.eq_of_mem_replicate repeated] at member
  simpa [bar, isBarChar] using member

theorem length_bars (depth : Nat) : (bars depth).length = depth * 4 := by
  simp [bars, bar]

/-- A caption starts with a letter. -/
theorem isBarChar_head (caption : Caption) (rest : List Char) :
    ∀ c ∈ (caption.text.toList ++ rest).head?, isBarChar c = false := by
  cases caption <;> simp [Caption.text, isBarChar]

/-- A line tells its depth and its caption. -/
theorem ofCaption_text_injective {line line' : Nat × Caption} (proper : line.2.IsProper)
    (proper' : line'.2.IsProper) (same : (ofCaption line).text = (ofCaption line').text) :
    line = line' := by
  have spelled := congrArg String.toList same
  rw [toList_text_ofCaption, toList_text_ofCaption, List.append_assoc, List.append_assoc] at spelled
  obtain ⟨barred, worded⟩ := append_inj_of_head (fun _ => isBarChar_of_mem_bars)
    (fun _ => isBarChar_of_mem_bars) (isBarChar_head _ _) (isBarChar_head _ _) spelled
  have depths := congrArg List.length barred
  rw [length_bars, length_bars] at depths
  have captions := String.toList_inj.mp (List.append_cancel_right worded)
  exact Prod.ext (by omega) (Caption.text_injective proper proper' captions)

/-- Lines tell what they were made from. -/
theorem join_text_injective {lines lines' : List (Nat × Caption)}
    (proper : ∀ line ∈ lines, line.2.IsProper) (proper' : ∀ line ∈ lines', line.2.IsProper)
    (same : String.join (lines.map fun line => (ofCaption line).text) =
      String.join (lines'.map fun line => (ofCaption line).text)) : lines = lines' := by
  have split : ∀ lines : List (Nat × Caption), (∀ line ∈ lines, line.2.IsProper) →
      textLines (String.join (lines.map fun line => (ofCaption line).text)).toList =
        lines.map fun line => (ofCaption line).text.toList := by
    intro lines proper
    rw [String.toList_join, List.flatMap_map]
    simp only [toList_text_ofCaption]
    apply textLines_flatMap
    intro line member
    have worded := Caption.newline_not_mem_text (proper line member)
    have barred : '\n' ∉ bars line.1 := fun member =>
      absurd (isBarChar_of_mem_bars member) (by decide)
    exact fun member => (List.mem_append.mp member).elim barred worded
  refine eq_of_map_eq (fun line member line' member' alike => ?_)
    ((split lines proper).symm.trans (same ▸ split lines' proper'))
  exact ofCaption_text_injective (proper line member) (proper' line' member')
    (String.toList_inj.mp alike)

end OutlineLine

/-! ## Forests -/

/-- A caption with the parts of what it describes. -/
inductive Outline where
  | node (caption : Caption) (parts : List Outline)

namespace Outline

/-- What holds of outlines whenever it holds of the parts of the first and of the others
holds of all outlines. -/
theorem forest_induction {motive : List Outline → Prop} (nil : motive [])
    (cons : ∀ caption parts rest, motive parts → motive rest →
      motive (node caption parts :: rest)) (outlines : List Outline) : motive outlines :=
  @Outline.rec_1 (fun outline => ∀ rest, motive rest → motive (outline :: rest)) motive
    (fun caption parts inner rest others => cons caption parts rest inner others) nil
    (fun _ rest first others => first rest others) outlines

mutual
/-- The lines of an outline whose root stands at a given depth. -/
def lines (depth : Nat) : Outline → List (Nat × Caption)
  | node caption parts => (depth, caption) :: linesAll (depth + 1) parts

/-- The lines of outlines that stand at the same depth. -/
def linesAll (depth : Nat) : List Outline → List (Nat × Caption)
  | [] => []
  | first :: rest => lines depth first ++ linesAll depth rest
end

@[simp] theorem linesAll_nil (depth : Nat) : linesAll depth [] = [] := rfl

@[simp] theorem linesAll_cons (depth : Nat) (caption : Caption) (parts rest : List Outline) :
    linesAll depth (node caption parts :: rest) =
      (depth, caption) :: (linesAll (depth + 1) parts ++ linesAll depth rest) := by
  rw [linesAll, lines, List.cons_append]

@[simp] theorem linesAll_append (depth : Nat) (first second : List Outline) :
    linesAll depth (first ++ second) = linesAll depth first ++ linesAll depth second := by
  induction first with
  | nil => rfl
  | cons outline rest ih => rw [List.cons_append, linesAll, linesAll, ih, List.append_assoc]

@[simp] theorem linesAll_leaves {α : Type} (depth : Nat) (caption : α → Caption)
    (items : List α) :
    linesAll depth (items.map fun item => node (caption item) []) =
      items.map fun item => (depth, caption item) := by
  induction items with
  | nil => rfl
  | cons item rest ih => rw [List.map_cons, linesAll_cons, linesAll_nil, ih, List.map_cons]; rfl

/-- No line stands less deep than the first. -/
theorem le_of_mem_linesAll {outlines : List Outline} {depth : Nat} {line : Nat × Caption}
    (member : line ∈ linesAll depth outlines) : depth ≤ line.1 := by
  induction outlines using forest_induction generalizing depth with
  | nil => cases member
  | cons caption parts rest inner others =>
      rw [linesAll_cons, List.mem_cons, List.mem_append] at member
      rcases member with rfl | member | member
      · exact le_rfl
      · exact Nat.le_of_succ_le (inner member)
      · exact others member

/-- Lines with their depths tell the outlines. -/
theorem linesAll_injective {first second : List Outline} {depth : Nat}
    (same : linesAll depth first = linesAll depth second) : first = second := by
  induction first using forest_induction generalizing second depth with
  | nil =>
      rcases second with _ | ⟨⟨caption, parts⟩, rest⟩
      · rfl
      · cases same
  | cons caption parts rest inner others =>
      rcases second with _ | ⟨⟨caption', parts'⟩, rest'⟩
      · cases same
      -- The parts of the first outline end at the next line that is no deeper than its own.
      have deeper : ∀ outlines : List Outline, ∀ line ∈ linesAll (depth + 1) outlines,
          decide (depth < line.1) = true := fun _ line member =>
        decide_eq_true (le_of_mem_linesAll member)
      have stops : ∀ outlines : List Outline, ∀ line ∈ (linesAll depth outlines).head?,
          decide (depth < line.1) = false := by
        intro outlines line member
        rcases outlines with _ | ⟨⟨caption, parts⟩, rest⟩
        · cases member
        · rw [linesAll_cons] at member
          cases member
          exact decide_eq_false (Nat.lt_irrefl depth)
      rw [linesAll_cons, linesAll_cons] at same
      obtain ⟨head, tail⟩ := List.cons.inj same
      obtain ⟨-, rfl⟩ := Prod.mk.inj head
      obtain ⟨below, beside⟩ := append_inj_of_head (deeper parts) (deeper parts') (stops rest)
        (stops rest') tail
      rw [inner below, others beside]

mutual
/-- All names in an outline are spelled like identifiers. -/
def IsProper : Outline → Prop
  | node caption parts => caption.IsProper ∧ IsProperAll parts

/-- All names in outlines are spelled like identifiers. -/
def IsProperAll : List Outline → Prop
  | [] => True
  | first :: rest => IsProper first ∧ IsProperAll rest
end

@[simp] theorem isProperAll_nil : IsProperAll [] := trivial

@[simp] theorem isProperAll_cons {caption : Caption} {parts rest : List Outline} :
    IsProperAll (node caption parts :: rest) ↔
      (caption.IsProper ∧ IsProperAll parts) ∧ IsProperAll rest := by
  rw [IsProperAll, IsProper]

@[simp] theorem isProperAll_append {first second : List Outline} :
    IsProperAll (first ++ second) ↔ IsProperAll first ∧ IsProperAll second := by
  induction first with
  | nil => simp
  | cons outline rest ih => rw [List.cons_append, IsProperAll, IsProperAll, ih, and_assoc]

@[simp] theorem isProperAll_leaves {α : Type} {caption : α → Caption} {items : List α} :
    IsProperAll (items.map fun item => node (caption item) []) ↔
      ∀ item ∈ items, (caption item).IsProper := by
  induction items with
  | nil => simp
  | cons item rest ih => simp [ih]

theorem isProper_of_mem_linesAll {outlines : List Outline} (proper : IsProperAll outlines)
    {depth : Nat} {line : Nat × Caption} (member : line ∈ linesAll depth outlines) :
    line.2.IsProper := by
  induction outlines using forest_induction generalizing depth with
  | nil => cases member
  | cons caption parts rest inner others =>
      rw [isProperAll_cons] at proper
      rw [linesAll_cons, List.mem_cons, List.mem_append] at member
      rcases member with rfl | member | member
      · exact proper.1.1
      · exact inner proper.1.2 member
      · exact others proper.2 member

end Outline

/-! ## Trees -/

/-- The outline of a procedure header. -/
def Header.toOutline (header : Header) : Outline :=
  .node (.header header.name)
    (header.parameters.map fun parameter => .node (.parameter parameter) [])

namespace Node

mutual
/-- The outlines of a tree: one for each node that has a line and is no part of another. -/
def outlines : Node → List Outline
  | .program items => outlinesAll items
  | .procedure heading locals body =>
      [.node .procedure (heading.toOutline ::
        ((locals.map fun declared => .node (.declaration declared) []) ++ outlines body))]
  | .header heading => [heading.toOutline]
  | .declarations declared => declared.map fun declared => .node (.declaration declared) []
  | .declaration declared => [.node (.declaration declared) []]
  | .block statements => outlinesAll statements
  | .call name arguments => [.node (.call name) (outlinesAll arguments)]
  | .assign target value => [.node .assign (outlines target ++ outlines value)]
  | .branch condition consequent none =>
      [.node .branch (outlines condition ++ outlines consequent)]
  | .branch condition consequent (some alternative) =>
      [.node .branch (outlines condition ++ (outlines consequent ++ outlines alternative))]
  | .loop condition body => [.node .loop (outlines condition ++ outlines body)]
  | .binary op left right => [.node (.binary op) (outlines left ++ outlines right)]
  | .unary op operand => [.node (.unary op) (outlines operand)]
  | .constant value => [.node (.constant value) []]
  | .reference name => [.node (.reference name) []]

/-- The outlines of trees in a list. -/
def outlinesAll : List Node → List Outline
  | [] => []
  | node :: rest => outlines node ++ outlinesAll rest
end

section Lines

open OutlineLine Outline

theorem outlineAll_eq {nodes : List Node}
    (all : ∀ node ∈ nodes, ∀ depth,
      node.outline depth = (linesAll depth node.outlines).map ofCaption) (depth : Nat) :
    outlineAll depth nodes = (linesAll depth (outlinesAll nodes)).map ofCaption := by
  induction nodes with
  | nil => rfl
  | cons node rest ih =>
      obtain ⟨first, others⟩ := List.forall_mem_cons.mp all
      rw [outlineAll, outlinesAll, linesAll_append, List.map_append, first, ih others]

theorem outline_declarations (declared : List Declaration) (depth : Nat) :
    declared.map (Declaration.outline depth) =
      (linesAll depth (declared.map fun declared => .node (.declaration declared) [])).map
        ofCaption := by
  rw [linesAll_leaves, List.map_map]
  rfl

theorem outline_header (heading : Header) (depth : Nat) :
    heading.outline depth = (linesAll depth [heading.toOutline]).map ofCaption := by
  simp [Header.outline, Header.toOutline, ofCaption, Caption.text]

/-- The lines of a tree are those of its outlines. -/
theorem outline_eq (node : Node) (depth : Nat) :
    node.outline depth = (linesAll depth node.outlines).map ofCaption := by
  induction node generalizing depth with
  | program items ih | block items ih => exact outlineAll_eq ih depth
  | procedure heading locals body ih =>
      rw [outline, outlines, outline_header, outline_declarations, ih, ← List.map_append,
        ← List.map_append, ← linesAll_append, ← linesAll_append, List.singleton_append,
        linesAll_cons, linesAll_nil, List.append_nil]
      rfl
  | header heading => exact outline_header heading depth
  | declarations declared => exact outline_declarations declared depth
  | call name arguments ih => simp [outline, outlines, outlineAll_eq ih, ofCaption, Caption.text]
  | assign left right ih ih' | branch left right ih ih' | loop left right ih ih'
  | binary _ left right ih ih' => simp [outline, outlines, ih, ih', ofCaption, Caption.text]
  | branchElse condition consequent alternative ih ih' ih'' =>
      simp [outline, outlines, ih, ih', ih'', ofCaption, Caption.text]
  | unary op operand ih => simp [outline, outlines, ih, ofCaption, Caption.text]
  | _ => simp [outline, outlines, Declaration.outline, ofCaption, Caption.text]

/-- **The text of an outline tells the outlines**, if all names are spelled like
identifiers. -/
theorem outlineText_eq_iff_outlines {tree tree' : Node} (proper : IsProperAll tree.outlines)
    (proper' : IsProperAll tree'.outlines) :
    tree.outlineText = tree'.outlineText ↔ tree.outlines = tree'.outlines := by
  rw [outlineText, outlineText, outline_eq, outline_eq, List.map_map, List.map_map]
  refine ⟨fun same => ?_, fun same => by rw [same]⟩
  apply @linesAll_injective _ _ 0
  exact join_text_injective (fun _ => isProper_of_mem_linesAll proper)
    (fun _ => isProper_of_mem_linesAll proper') same

end Lines

end Node

end ProcLang
