import ProcLang.Proofs.Semantics.Flat

/-!
# Statements without calls

The natural semantics of the statements that call no procedure: sequences,
assignments, choices, loops, reads and writes, over expressions that only look
at the memory (`Node.Executes`). It says what a finished run leaves behind and
is silent about runs that never finish or that wait for input.

It agrees with the meaning of nodes: a statement executes exactly if its meaning
is done for all fuel from some amount on.
-/

set_option autoImplicit false

namespace ProcLang

namespace Node

/-! ## The statements -/

/-- Expressions that look at the memory and do nothing else. -/
inductive Plain : Node → Prop
  | constant (value : Int32) : Plain (.constant value)
  | reference (name : String) : Plain (.reference name)
  | unary (op : UnaryOperator) {operand : Node} (plain : Plain operand) : Plain (.unary op operand)
  | binary (op : BinaryOperator) {left right : Node} (plain : Plain left) (plain' : Plain right) :
      Plain (.binary op left right)

/-- Statements that call no procedure. -/
inductive Statement : Node → Prop
  | block {statements : List Node} (all : ∀ statement ∈ statements, Statement statement) :
      Statement (.block statements)
  | assign {target value : Node} (plain : target.Plain) (plain' : value.Plain) :
      Statement (.assign target value)
  | branch {condition consequent : Node} (plain : condition.Plain) (first : Statement consequent) :
      Statement (.branch condition consequent none)
  | branchElse {condition consequent alternative : Node} (plain : condition.Plain)
      (first : Statement consequent) (second : Statement alternative) :
      Statement (.branch condition consequent (some alternative))
  | loop {condition body : Node} (plain : condition.Plain) (rounds : Statement body) :
      Statement (.loop condition body)
  | read {name : String} {target : Node} (known : Intrinsic.ofName? name = some .read)
      (plain : target.Plain) : Statement (.call name [target])
  | write {name : String} {value : Node} (known : Intrinsic.ofName? name = some .write)
      (plain : value.Plain) : Statement (.call name [value])

/-! ## Natural semantics -/

section

variable (setting : Setting)

/-- The value of an expression. An array stands for its address. -/
def evaluate (memory : Word → Word) : Node → Word
  | .constant value => value.toBitVec
  | .reference name =>
      if (setting.resolve name).isArray then setting.address name
      else memory (setting.address name)
  | .unary .dereference operand => memory (evaluate memory operand)
  | .unary op operand => Arithmetic.unary op (evaluate memory operand)
  | .binary op left right =>
      setting.arithmetic.binary op (evaluate memory left) (evaluate memory right)
  | _ => 0

/-- Where an expression is stored. One that is not stored anywhere is taken for
the address itself. -/
def locate (memory : Word → Word) : Node → Word
  | .reference name => setting.address name
  | .unary .dereference operand => evaluate setting memory operand
  | node => evaluate setting memory node

/-- A statement takes one world to another. -/
inductive Executes : Node → World → World → Prop
  | nil {world : World} : Executes (.block []) world world
  | cons {statement : Node} {rest : List Node} {world world' world'' : World}
      (first : Executes statement world world') (others : Executes (.block rest) world' world'') :
      Executes (.block (statement :: rest)) world world''
  | assign {target value : Node} {world : World} :
      Executes (.assign target value) world
        (world.store (target.locate setting world.memory) (value.evaluate setting world.memory))
  | skip {condition consequent : Node} {world : World}
      (zero : condition.evaluate setting world.memory = 0) :
      Executes (.branch condition consequent none) world world
  | consequent {condition consequent : Node} {alternative : Option Node} {world world' : World}
      (nonzero : condition.evaluate setting world.memory ≠ 0)
      (taken : Executes consequent world world') :
      Executes (.branch condition consequent alternative) world world'
  | alternative {condition consequent alternative : Node} {world world' : World}
      (zero : condition.evaluate setting world.memory = 0)
      (taken : Executes alternative world world') :
      Executes (.branch condition consequent (some alternative)) world world'
  | leave {condition body : Node} {world : World}
      (zero : condition.evaluate setting world.memory = 0) :
      Executes (.loop condition body) world world
  | round {condition body : Node} {world world' world'' : World}
      (nonzero : condition.evaluate setting world.memory ≠ 0) (once : Executes body world world')
      (again : Executes (.loop condition body) world' world'') :
      Executes (.loop condition body) world world''
  | read {name : String} {target : Node} {word : Word} {world world' : World}
      (known : Intrinsic.ofName? name = some .read) (taken : world.read? = some (word, world')) :
      Executes (.call name [target]) world
        (world'.store (target.locate setting world.memory) word)
  | write {name : String} {value : Node} {world : World}
      (known : Intrinsic.ofName? name = some .write) :
      Executes (.call name [value]) world (world.write (value.evaluate setting world.memory))

end

/-! ## Agreement with the meaning -/

section

variable (setting : Setting) (fuel : Nat) {node : Node}

theorem Plain.value_eq (plain : node.Plain) (operands : List Word) (pushed : Nat) (world : World) :
    (node.meaning setting fuel).value operands pushed world =
      .done (node.evaluate setting world.memory, world) := by
  induction plain generalizing operands with
  | constant value => rfl
  | reference name =>
      change Meaning.reference setting name operands pushed world = _
      rw [Meaning.reference, evaluate]
      split <;> rfl
  | @unary op operand _ ih =>
      have same : Meaning.unary op (operand.meaning setting fuel) operands pushed world =
          .done ((Node.unary op operand).evaluate setting world.memory, world) := by
        rw [Meaning.unary, ih]
        cases op <;> rfl
      cases op <;> exact same
  | binary op _ _ ih ih' =>
      change Meaning.binary setting op _ _ operands pushed world = _
      rw [Meaning.binary, ih, Outcome.done_bind, ih']
      rfl

theorem Plain.address_eq (plain : node.Plain) (operands : List Word) (pushed : Nat)
    (world : World) :
    (node.meaning setting fuel).address operands pushed world =
      .done (node.locate setting world.memory, world) := by
  have value := plain.value_eq setting fuel operands pushed world
  cases plain with
  | constant number => exact value
  | reference name => rfl
  | unary op plain =>
      cases op with
      | dereference => exact plain.value_eq setting fuel operands pushed world
      | plus => exact value
      | minus => exact value
      | not => exact value
  | binary op plain plain' => exact value

/-- One round of a loop. -/
theorem Plain.iterate_succ {condition body : Node} (plain : condition.Plain) (rounds : Nat)
    (world : World) :
    Outcome.iterate World.channel ((condition.meaning setting fuel).value [] 0)
        ((body.meaning setting fuel).effect 0) (rounds + 1) world =
      if condition.evaluate setting world.memory = 0 then .done world
      else (body.meaning setting fuel).effect 0 world >>=
        Outcome.iterate World.channel ((condition.meaning setting fuel).value [] 0)
          ((body.meaning setting fuel).effect 0) rounds := by
  rw [Outcome.iterate, plain.value_eq, Outcome.done_bind]

/-- The rounds of a loop, with the same fuel for the body in every round. -/
theorem ensures_loop {condition body : Node} (plain : condition.Plain)
    (once : ∀ world, ((body.meaning setting fuel).effect 0 world).Ensures
      (body.Executes setting world)) (rounds : Nat) (world : World) :
    (Outcome.iterate World.channel ((condition.meaning setting fuel).value [] 0)
      ((body.meaning setting fuel).effect 0) rounds world).Ensures
      ((Node.loop condition body).Executes setting world) := by
  induction rounds generalizing world with
  | zero => trivial
  | succ rounds ih =>
      rw [plain.iterate_succ]
      split
      next zero => exact Executes.leave zero
      next nonzero =>
        refine (once world).bind fun world' first => ?_
        exact (ih world').imp fun world'' again => .round nonzero first again

/-- The meaning of a statement does not go wrong, and a result that it gives is
one to which the statement executes. -/
theorem Statement.ensures (statement : node.Statement) (world : World) :
    ((node.meaning setting fuel).effect 0 world).Ensures (node.Executes setting world) := by
  induction statement generalizing world with
  | @block statements all ih =>
      change (Meaning.sequence (meaningAll setting fuel statements) 0 world).Ensures _
      induction statements generalizing world with
      | nil => exact Executes.nil
      | cons statement rest ih' =>
          refine (ih statement List.mem_cons_self world).bind fun world' first => ?_
          refine (ih' (fun other member => all other (.tail _ member))
            (fun other member => ih other (.tail _ member)) world').imp fun world'' others => ?_
          exact .cons first others
  | assign plain plain' =>
      change (Meaning.assign setting _ _ 0 world).Ensures _
      rw [Meaning.assign, plain.address_eq, Outcome.done_bind, plain'.value_eq, Outcome.done_bind,
        Meaning.store_zero]
      exact Executes.assign
  | branch plain _ ih =>
      change (Meaning.branch _ _ _ 0 world).Ensures _
      rw [Meaning.branch, plain.value_eq, Outcome.done_bind]
      split
      next zero => exact Executes.skip zero
      next nonzero => exact (ih world).imp fun world' taken => .consequent nonzero taken
  | branchElse plain _ _ ih ih' =>
      change (Meaning.branch _ _ _ 0 world).Ensures _
      rw [Meaning.branch, plain.value_eq, Outcome.done_bind]
      split
      next zero => exact (ih' world).imp fun world' taken => .alternative zero taken
      next nonzero => exact (ih world).imp fun world' taken => .consequent nonzero taken
  | @loop condition body plain _ ih =>
      change (Outcome.iterate _ _ _ fuel world).Ensures _
      exact ensures_loop setting fuel plain ih fuel world
  | @read name target known plain =>
      change (Meaning.call setting name [target.meaning setting fuel] 0 world).Ensures _
      rw [Meaning.call_read _ _ _ known, Meaning.read, plain.address_eq, Outcome.done_bind]
      cases taken : world.read? with
      | none => trivial
      | some result =>
          simp only [Meaning.store_zero]
          exact Executes.read known taken
  | @write name value known plain =>
      change (Meaning.call setting name [value.meaning setting fuel] 0 world).Ensures _
      rw [Meaning.call_write _ _ _ known, Meaning.write, plain.value_eq]
      exact Executes.write known

end

section

variable {setting : Setting} {node : Node}

/-- Enough fuel and enough rounds for a loop that ends. -/
theorem Executes.exists_rounds {condition body : Node} {world world' : World}
    (plain : condition.Plain)
    (enough : ∀ world world', body.Executes setting world world' →
      ∃ least, ∀ fuel, least ≤ fuel →
        (body.meaning setting fuel).effect 0 world = .done world')
    (executes : (Node.loop condition body).Executes setting world world') :
    ∃ least, ∀ fuel rounds, least ≤ fuel → least ≤ rounds →
      Outcome.iterate World.channel ((condition.meaning setting fuel).value [] 0)
        ((body.meaning setting fuel).effect 0) rounds world = .done world' := by
  generalize whole : Node.loop condition body = node at executes
  induction executes with
  | leave zero =>
      cases whole
      refine ⟨1, fun fuel rounds _ some => ?_⟩
      obtain ⟨rounds, rfl⟩ := Nat.exists_eq_add_of_le' some
      rw [plain.iterate_succ, if_pos zero]
  | round nonzero once again _ ih =>
      cases whole
      obtain ⟨least, first⟩ := enough _ _ once
      obtain ⟨least', others⟩ := ih rfl
      refine ⟨max least least' + 1, fun fuel rounds much some => ?_⟩
      obtain ⟨rounds, rfl⟩ := Nat.exists_eq_add_of_le' (Nat.le_trans (Nat.le_add_left 1 _) some)
      rw [plain.iterate_succ, if_neg nonzero, first fuel (by omega), Outcome.done_bind]
      exact others fuel rounds (by omega) (by omega)
  | nil | cons | assign | skip | consequent | alternative | read | write => cases whole

/-- With enough fuel, the meaning of a statement gives the result to which the
statement executes. -/
theorem Statement.exists_done (statement : node.Statement) {world world' : World}
    (executes : node.Executes setting world world') :
    ∃ least, ∀ fuel, least ≤ fuel →
      (node.meaning setting fuel).effect 0 world = .done world' := by
  induction statement generalizing world world' with
  | @block statements all ih =>
      induction statements generalizing world world' with
      | nil =>
          cases executes
          exact ⟨0, fun _ _ => rfl⟩
      | cons statement rest ih' =>
          cases executes with
          | cons first others =>
              obtain ⟨least, done⟩ := ih statement List.mem_cons_self first
              obtain ⟨least', done'⟩ := ih' (fun other member => all other (.tail _ member))
                (fun other member => ih other (.tail _ member)) others
              refine ⟨max least least', fun fuel much => ?_⟩
              change (statement.meaning setting fuel).effect 0 world >>= _ = _
              rw [done fuel (by omega), Outcome.done_bind]
              exact done' fuel (by omega)
  | assign plain plain' =>
      cases executes
      refine ⟨0, fun fuel _ => ?_⟩
      change Meaning.assign setting _ _ 0 world = _
      rw [Meaning.assign, plain.address_eq, Outcome.done_bind, plain'.value_eq, Outcome.done_bind,
        Meaning.store_zero]
  | branch plain _ ih =>
      cases executes with
      | skip zero =>
          refine ⟨0, fun fuel _ => ?_⟩
          change Meaning.branch _ _ _ 0 world = _
          rw [Meaning.branch, plain.value_eq, Outcome.done_bind, if_pos zero]
      | consequent nonzero taken =>
          obtain ⟨least, done⟩ := ih taken
          refine ⟨least, fun fuel much => ?_⟩
          change Meaning.branch _ _ _ 0 world = _
          rw [Meaning.branch, plain.value_eq, Outcome.done_bind, if_neg nonzero, done fuel much]
  | branchElse plain _ _ ih ih' =>
      cases executes with
      | alternative zero taken =>
          obtain ⟨least, done⟩ := ih' taken
          refine ⟨least, fun fuel much => ?_⟩
          change Meaning.branch _ _ _ 0 world = _
          rw [Meaning.branch, plain.value_eq, Outcome.done_bind, if_pos zero, done fuel much]
      | consequent nonzero taken =>
          obtain ⟨least, done⟩ := ih taken
          refine ⟨least, fun fuel much => ?_⟩
          change Meaning.branch _ _ _ 0 world = _
          rw [Meaning.branch, plain.value_eq, Outcome.done_bind, if_neg nonzero, done fuel much]
  | loop plain _ ih =>
      obtain ⟨least, done⟩ := executes.exists_rounds plain fun _ _ once => ih once
      exact ⟨least, fun fuel much => done fuel fuel much much⟩
  | @read name target known plain =>
      refine ⟨0, fun fuel _ => ?_⟩
      change Meaning.call setting name [target.meaning setting fuel] 0 world = _
      cases executes with
      | read _ taken =>
          rw [Meaning.call_read _ _ _ known, Meaning.read, plain.address_eq, Outcome.done_bind]
          simp only [taken, Meaning.store_zero]
      | write known' => cases known.symm.trans known'
  | @write name value known plain =>
      refine ⟨0, fun fuel _ => ?_⟩
      change Meaning.call setting name [value.meaning setting fuel] 0 world = _
      cases executes with
      | read known' _ => cases known.symm.trans known'
      | write _ => rw [Meaning.call_write _ _ _ known, Meaning.write, plain.value_eq]; rfl

end

end Node

end ProcLang
