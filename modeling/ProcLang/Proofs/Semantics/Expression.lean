import ProcLang.Proofs.Semantics.Flat

/-!
# Expressions with calls

Expressions may call procedures and intrinsics, nested to any depth. They have
no loops, so their meaning does not depend on fuel: it is never cut short
(`Node.Expression.settled`).
-/

set_option autoImplicit false

namespace ProcLang

/-- Expressions. -/
inductive Node.Expression : Node → Prop
  | constant (value : Int32) : Expression (.constant value)
  | reference (name : String) : Expression (.reference name)
  | unary (op : UnaryOperator) {operand : Node} (inner : Expression operand) :
      Expression (.unary op operand)
  | binary (op : BinaryOperator) {left right : Node} (first : Expression left)
      (second : Expression right) : Expression (.binary op left right)
  | call (name : String) {arguments : List Node}
      (all : ∀ argument ∈ arguments, Expression argument) : Expression (.call name arguments)

namespace Meaning

/-- Nothing that a node means is cut short. -/
structure Settled (meaning : Meaning) : Prop where
  value : ∀ operands pushed world, (meaning.value operands pushed world).Settled
  address : ∀ operands pushed world, (meaning.address operands pushed world).Settled
  effect : ∀ pushed world, (meaning.effect pushed world).Settled

section

variable {setting : Setting} {value address : List Word → Nat → World → Outcome (Word × World)}
  {effect : Nat → World → Outcome World} {left right operand target : Meaning}
  {meanings : List Meaning}

theorem settled_ofValue (settled : ∀ operands pushed world, (value operands pushed world).Settled) :
    (ofValue value).Settled :=
  ⟨settled, settled, fun _ _ => (settled _ _ _).bind fun _ => Outcome.settled_done _⟩

theorem settled_ofPlace (settled : ∀ operands pushed world, (value operands pushed world).Settled)
    (settled' : ∀ operands pushed world, (address operands pushed world).Settled) :
    (ofPlace value address).Settled :=
  ⟨settled, settled', fun _ _ => (settled _ _ _).bind fun _ => Outcome.settled_done _⟩

theorem settled_ofEffect (settled : ∀ pushed world, (effect pushed world).Settled) :
    (ofEffect setting effect).Settled :=
  have value : ∀ operands pushed world, (parked setting effect operands pushed world).Settled :=
    fun _ _ _ => (settled _ _).bind fun _ => Outcome.settled_done _
  ⟨value, value, settled⟩

theorem settled_binary (op : BinaryOperator) (settled : left.Settled) (settled' : right.Settled)
    (operands : List Word) (pushed : Nat) (world : World) :
    (binary setting op left right operands pushed world).Settled :=
  (settled.value _ _ _).bind fun _ =>
    (settled'.value _ _ _).bind fun _ => Outcome.settled_done _

theorem settled_unary (op : UnaryOperator) (settled : operand.Settled) (operands : List Word)
    (pushed : Nat) (world : World) : (unary op operand operands pushed world).Settled :=
  (settled.value _ _ _).bind fun _ => by cases op <;> exact Outcome.settled_done _

theorem settled_store (pushed : Nat) (address value : Word) (world : World) :
    (store setting pushed address value world).Settled := by
  unfold store
  split
  · exact Outcome.settled_fault
  · exact Outcome.settled_done _

theorem settled_answer (pushed : Nat) (world : World) : (answer setting pushed world).Settled := by
  unfold answer
  split
  · exact Outcome.settled_waits _
  · split
    · exact Outcome.settled_done _
    · exact Outcome.settled_fault

theorem settled_arguments (settled : ∀ meaning ∈ meanings, meaning.Settled) (pushed : Nat)
    (world : World) : (arguments setting meanings pushed world).Settled := by
  induction meanings with
  | nil => exact Outcome.settled_done _
  | cons meaning rest ih =>
      refine (ih fun other member => settled other (.tail _ member)).bind fun _ => ?_
      exact ((settled meaning List.mem_cons_self).value _ _ _).bind fun _ => Outcome.settled_done _

theorem settled_read (settled : target.Settled) (pushed : Nat) (world : World) :
    (read setting target pushed world).Settled := by
  refine (settled.address _ _ _).bind fun result => ?_
  split
  · exact Outcome.settled_waits _
  · exact settled_store _ _ _ _

theorem settled_call (name : String) (settled : ∀ meaning ∈ meanings, meaning.Settled)
    (pushed : Nat) (world : World) : (call setting name meanings pushed world).Settled := by
  rcases Plan.general_or_intrinsic name meanings with general | ⟨intrinsic, first, rest, known, rfl⟩
  · rw [call_general setting general]
    exact (settled_arguments settled _ _).bind fun _ => settled_answer _ _
  · have settled := settled first List.mem_cons_self
    cases intrinsic with
    | read =>
        rw [call_read setting first rest known]
        exact settled_read settled pushed world
    | write =>
        rw [call_write setting first rest known]
        exact (settled.value _ _ _).bind fun _ => Outcome.settled_done _

end

end Meaning

namespace Node

variable {setting : Setting} {fuel : Nat} {node : Node} {nodes : List Node}

theorem settled_of_mem_meaningAll
    (settled : ∀ node ∈ nodes, (node.meaning setting fuel).Settled) :
    ∀ meaning ∈ meaningAll setting fuel nodes, meaning.Settled := by
  induction nodes with
  | nil => exact nofun
  | cons node rest ih =>
      rw [meaningAll, List.forall_mem_cons]
      exact ⟨settled node List.mem_cons_self, ih fun other member => settled other (.tail _ member)⟩

/-- The meaning of an expression is not cut short. -/
theorem Expression.settled (expression : node.Expression) :
    (node.meaning setting fuel).Settled := by
  induction expression with
  | constant value => exact Meaning.settled_ofValue fun _ _ _ => Outcome.settled_done _
  | reference name =>
      refine Meaning.settled_ofPlace (fun operands pushed world => ?_)
        fun _ _ _ => Outcome.settled_done _
      unfold Meaning.reference
      split <;> exact Outcome.settled_done _
  | unary op _ ih =>
      have operation := Meaning.settled_unary op ih
      cases op with
      | dereference => exact Meaning.settled_ofPlace operation ih.value
      | plus => exact Meaning.settled_ofValue operation
      | minus => exact Meaning.settled_ofValue operation
      | not => exact Meaning.settled_ofValue operation
  | binary op _ _ ih ih' => exact Meaning.settled_ofValue (Meaning.settled_binary op ih ih')
  | call name _ ih =>
      exact Meaning.settled_ofEffect (Meaning.settled_call name (settled_of_mem_meaningAll ih))

end Node

end ProcLang
