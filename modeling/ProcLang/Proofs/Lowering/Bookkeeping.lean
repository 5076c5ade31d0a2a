import ProcLang.Proofs.Lowering.Completion
import ProcLang.Proofs.Lowering.Reached

/-!
# Lowering keeps its books

A walk over a node moves the counters of its context up and down, and hands them
back as it found them. After a value or an address the context differs in the number
of the next label alone, which has grown by one for each choice and each loop that
was lowered. After an effect the cursor may differ too, since a statement starts
again from the first scratch register.

All that takes room. A counter moves up by at most one for each node, so room for the
nodes above every counter is enough for an effect (`Context.Clears`). For a value or an
address it is not: a statement where a value is needed first pushes the registers below
the cursor, and these need room above the words already pushed.

What was emitted before is added to and not touched (`Emitter.Appends`).
-/

set_option autoImplicit false

namespace ProcLang

/-- After anything that ends in one context, a walk finishes in another, and it only
appends to what was emitted. -/
def Emitter.Appends (walk : Emitter Unit) (before after : Context) : Prop :=
  ∃ output, ∀ (start : Context) (earlier : Output) (first : Emitter Unit),
    first.Yields start () before earlier →
      (first >>= fun _ => walk).Yields start () after (earlier ++ output)

theorem Emitter.Yields.appends {walk : Emitter Unit} {before after : Context} {output : Output}
    (yields : walk.Yields before () after output) : walk.Appends before after :=
  ⟨output, fun _ _ _ earlier => earlier.andThen yields⟩

/-- The negation of a word count is not out of range, because the count stops at the
greatest offset. -/
theorem toInt_neg_wordImmediate_eq (words : Nat) :
    (-wordImmediate words).toInt = -(wordImmediate words).toInt := by
  rw [toInt_neg_wordImmediate, toInt_wordImmediate]

/-- Every counter has room for a number of nodes above it. -/
structure Context.Clears (context : Context) (size : Nat) : Prop where
  cursor : context.cursor + size ≤ maxCount
  stack : context.pushed + size ≤ maxCount
  labels : context.nextLabel + size ≤ maxCount

/-- Registers below the cursor need no other room than that on the stack. -/
theorem Context.Clears.hasRoom {context : Context} {registers size : Nat}
    (clears : context.Clears size) (live : registers ≤ context.cursor - Register.scratchBase)
    (stack : context.pushed + registers + size ≤ maxCount) : context.HasRoom registers size := by
  refine ⟨?_, stack, clears.labels⟩
  have above := clears.cursor
  unfold Register.scratchBase maxCount at *
  omega

namespace Node

variable (node : Node) {before : Context}

section Live

variable (clears : before.Clears node.size)
  (live : before.pushed + (before.cursor - Register.scratchBase) + node.size ≤ maxCount)

include clears live

theorem appends_value :
    node.lower.value.Appends before
      { before with nextLabel := before.nextLabel + node.choices } := by
  rw [← choices_plan node]
  exact ((lower_within node).value.yields ⟨rfl, rfl⟩
    (clears.hasRoom (Nat.le_refl _) live)).appends

theorem appends_address :
    node.lower.address.Appends before
      { before with nextLabel := before.nextLabel + node.choices } := by
  rw [← choices_plan node]
  exact ((lower_within node).address.yields ⟨rfl, rfl⟩
    (clears.hasRoom (Nat.le_refl _) live)).appends

end Live

theorem appends_effect (clears : before.Clears node.size) :
    ∃ cursor, node.lower.effect.Appends before
      { before with cursor := cursor, nextLabel := before.nextLabel + node.choices } := by
  rw [← choices_plan node]
  obtain ⟨cursor, yields⟩ := node.yields_effect before
    (clears.hasRoom (Nat.zero_le _) clears.stack)
  exact ⟨cursor, yields.appends⟩

end Node

/-- **Lowering finishes and keeps its books.** A tree of fewer than `2 ^ 31` nodes is
lowered, whatever its shape, and no negation of a word count is out of range. From a
context with room for the nodes above every counter, an effect finishes and only appends.
So do a value and an address, if there is room on the stack for the nodes and for the
registers in use. A value and an address leave the context as it was, but for one label
for each choice and each loop that is lowered; an effect may move the cursor too. -/
theorem lower_restores :
    (∀ (options : LoweringOptions) (root : Node), root.size < 2 ^ 31 →
      ∃ program, lowerProgram options root = .ok program) ∧
    (∀ words, (-wordImmediate words).toInt = -(wordImmediate words).toInt) ∧
    ∀ (node : Node) (before : Context), before.Clears node.size →
      (before.pushed + (before.cursor - Register.scratchBase) + node.size ≤ maxCount →
        node.lower.value.Appends before
            { before with nextLabel := before.nextLabel + node.choices } ∧
          node.lower.address.Appends before
            { before with nextLabel := before.nextLabel + node.choices }) ∧
      ∃ cursor, node.lower.effect.Appends before
        { before with cursor := cursor, nextLabel := before.nextLabel + node.choices } := by
  refine ⟨fun options root small => exists_lowerProgram options ?_, toInt_neg_wordImmediate_eq,
    fun node before clears => ⟨fun live => ?_, node.appends_effect clears⟩⟩
  · unfold maxCount
    omega
  · exact ⟨node.appends_value clears live, node.appends_address clears live⟩

/-- A loop where a value is needed, with an intrinsic whose second argument is not
lowered: of its choice and two loops only two take a label. -/
theorem lower_restores_parked :
    let node : Node := .binary .add (.constant 1)
      (.loop (.branch (.constant 0) (.block []) none)
        (.call "write" [.reference "x", .loop (.constant 0) (.block [])]))
    let before : Context := ⟨false, 7, 4, 1, 2, ⟨[], ["x"]⟩, []⟩
    (∃ program, lowerProgram .standard node = .ok program) ∧ before.Clears node.size ∧
      node.lower.value.Appends before { before with nextLabel := 6 } :=
  ⟨lower_restores.1 _ _ (by decide), ⟨by decide, by decide, by decide⟩,
    ((lower_restores.2.2 _ _ ⟨by decide, by decide, by decide⟩).1 (by decide)).1⟩

/-- **Room above every counter is not enough for a value.** A call where a value is needed
pushes the two registers below the cursor, and there is room on the stack for one. -/
theorem lower_overflows_parked :
    let node : Node := .call "f" []
    let before : Context := ⟨false, 5, 0, 0, 4294967294, .empty, []⟩
    before.Clears node.size ∧ node.lower.value.run before = .error .addition ∧
      node.lower.address.run before = .error .addition :=
  ⟨⟨by decide, by decide, by decide⟩, rfl, rfl⟩

end ProcLang
