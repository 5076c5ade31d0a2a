import ProcLang.Proofs.Grammar.Soundness
import ProcLang.Proofs.Lowering.Completion
import ProcLang.Proofs.Lowering.Warnings
import ProcLang.Proofs.Token.Scanned
import ProcLang.Syntax.Check

/-!
# What a source text is read as

A tree that was read from a source text is well-formed: the grammar puts every part
where it belongs, and names and numbers can be written because they were scanned
(`isWellFormed_of_parse`). Such a tree passes the check that is made of trees from
elsewhere, and lowering it gives no warning but for an entry that is not defined
(`parse_handsOver`).
-/

set_option autoImplicit false

namespace ProcLang

/-- **A tree that was read from a source text is well-formed.** -/
theorem isWellFormed_of_parse {source : String} {tree : Node} {events : List Event}
    (parsed : parse source = (.ok tree, events)) : tree.isWellFormed := by
  unfold parse at parsed
  split at parsed
  next => cases parsed
  next tokens scanned =>
    obtain ⟨used, span, rfl, writable⟩ := tokensOf_writable scanned
    have ordinary : ∀ token ∈ used, token.kind ≠ .endOfFile := by
      intro token member ends
      have written := writable token member
      rw [ends] at written
      cases written
    cases outcome : ((TokenStream.ofTokens (used ++ [⟨.endOfFile, span⟩])).read
        Grammar.program).outcome with
    | error fault => simp [outcome] at parsed
    | ok root =>
        simp only [outcome, Prod.mk.injEq, Except.ok.injEq] at parsed
        obtain ⟨rfl, -⟩ := parsed
        have spelled := Grammar.isProgram_of_read ordinary outcome
        exact spelled.isWellFormed_iff.mpr (List.forall_mem_map.mpr writable)

/-! ## Checks -/

theorem checkDeclarations_of_isProper {declared : List Declaration}
    (proper : declared.all Declaration.isProper) : checkDeclarations declared = .ok () := by
  have none : declared.find? (fun entry => entry.words == 0) = none := by
    rw [List.find?_eq_none]
    intro entry member empty
    have sized := List.all_eq_true.mp proper entry member
    rw [Declaration.isProper, beq_iff_eq.mp empty] at sized
    simp at sized
  rw [checkDeclarations, none]

namespace Node

theorem check_of_isItem {item : Node} (proper : item.isItem) : item.check = .ok () := by
  cases item with
  | declarations declared =>
      rw [isItem, Bool.and_eq_true] at proper
      rw [check]
      exact checkDeclarations_of_isProper proper.2
  | procedure heading locals body =>
      simp only [isItem, Bool.and_eq_true] at proper
      obtain ⟨⟨⟨⟨-, sized⟩, reach⟩, -⟩, -⟩ := proper
      obtain ⟨extent, reached⟩ := Option.isSome_iff_exists.mp reach
      have framed : checkFrame heading locals = .ok () := by
        rw [checkFrame, reached]
      rw [check, checkDeclarations_of_isProper sized]
      exact framed
  | _ => cases proper

theorem checkAll_of_isItem {items : List Node} (proper : items.all isItem) :
    checkAll items = .ok () := by
  induction items with
  | nil => rfl
  | cons item rest ih =>
      rw [List.all_cons, Bool.and_eq_true] at proper
      rw [checkAll, check_of_isItem proper.1]
      exact ih proper.2

/-- **A well-formed tree passes the check.** -/
theorem check_of_isWellFormed {tree : Node} (wellFormed : tree.isWellFormed) :
    tree.check = .ok () := by
  cases tree with
  | program items =>
      rw [check]
      exact checkAll_of_isItem wellFormed
  | _ => cases wellFormed

end Node

/-! ## Handing over -/

/-- **What a source text is read as is well-formed.** So it passes the check of trees,
and lowering warns of nothing but an entry that is not defined. -/
theorem parse_handsOver {source : String} {tree : Node} {events : List Event}
    (parsed : parse source = (.ok tree, events)) :
    tree.isWellFormed ∧ tree.check = .ok () ∧
      ∀ options program, lowerProgram options tree = .ok program →
        Event.keep .warn program.events =
          if tree.procedureNames.contains options.entry then []
          else [.entryUndefined options.entry] := by
  have wellFormed := isWellFormed_of_parse parsed
  refine ⟨wellFormed, Node.check_of_isWellFormed wellFormed, fun options program lowered => ?_⟩
  obtain ⟨items, rfl, shape⟩ := parse_shape parsed
  exact keep_warn_lowerProgram shape lowered

/-- A program with a global array, a parameter, an intrinsic inside an expression, and
no procedure of the name that is called first. -/
def startText : String :=
  "var g[2] proc start(n) begin if n then read(g[1]) end n := write(n) end"

/-- The tree of the program. -/
def startTree : Node :=
  .program [.declarations [⟨"g", 2⟩],
    .procedure ⟨"start", ["n"]⟩ [] (.block [
      .branch (.reference "n") (.block [.call "read" [.element "g" (.constant 1)]]) none,
      .assign (.reference "n") (.call "write" [.reference "n"])])]

set_option maxRecDepth 8000 in
/-- The program is read, passes the check, and gives the one warning. -/
theorem parse_handsOver_start :
    (parse startText).1 = .ok startTree ∧ startTree.isWellFormed ∧ startTree.check = .ok () ∧
      ∃ program, lowerProgram .standard startTree = .ok program ∧
        Event.keep .warn program.events = [.entryUndefined "main"] := by
  have outcome : (parse startText).1 = .ok startTree := by with_unfolding_all rfl
  have parsed : parse startText = (.ok startTree, (parse startText).2) := Prod.ext outcome rfl
  obtain ⟨wellFormed, checked, warned⟩ := parse_handsOver parsed
  obtain ⟨program, lowered⟩ := @exists_lowerProgram .standard startTree (by decide)
  exact ⟨outcome, wellFormed, checked, program, lowered, warned _ _ lowered⟩

end ProcLang
