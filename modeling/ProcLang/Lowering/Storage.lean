import ProcLang.Lowering.Emitter

/-!
# Where names live

A name stands for a local variable, else for a parameter, else for a global.
Locals and parameters are found by their distance below the top of the frame.
The distance keeps growing from the locals to the parameters, so the parameters
lie below the whole frame, where the caller has pushed the arguments.

The stack register points above everything that was pushed since the frame was
made, so the offset from it is the distance plus the words pushed.
-/

set_option autoImplicit false

namespace ProcLang

/-- Where a name lives. -/
inductive Address where
  /-- A local variable, by its distance below the top of the frame. -/
  | frameLocal (shift : Nat) (size : UInt32)
  /-- A parameter, by its distance below the top of the frame. -/
  | parameter (shift : Nat)
  /-- A global, or a name that nothing declares. -/
  | global (name : String) (size : Option UInt32)
  deriving DecidableEq, Repr, Inhabited

/-- Whether an address is that of more than one word. -/
def Address.isArray : Address → Bool
  | frameLocal _ size => 1 < size.toNat
  | parameter _ => false
  | global _ size => size.any fun words => 1 < words.toNat

namespace Scope

/-- The first parameter with a given name, below a given distance. -/
def findParameter (name : String) (shift : Nat) : List String → Option Address
  | [] => none
  | parameter :: rest =>
      if parameter = name then some (.parameter (addCount shift 1))
      else findParameter name (addCount shift 1) rest

/-- The first local variable with a given name, below a given distance, else the
first parameter. -/
def findLocal (name : String) (parameters : List String) (shift : Nat) :
    List Declaration → Option Address
  | [] => findParameter name shift parameters
  | declared :: rest =>
      if declared.name = name then some (.frameLocal (addCount shift declared.words) declared.size)
      else findLocal name parameters (addCount shift declared.words) rest

/-- Where a name of a procedure lives, if it is one. -/
def find (scope : Scope) (name : String) : Option Address :=
  findLocal name scope.parameters 0 scope.locals

end Scope

/-- Where a name lives. -/
def Context.resolve (context : Context) (name : String) : Address :=
  (context.scope.find name).getD (.global name (context.globalSize? name))

/-- A word count as a constant of an instruction; counts out of reach stop at
the greatest one in reach. -/
def wordImmediate (words : Nat) : Int32 :=
  Int32.ofNat (min words maxOffset)

theorem toInt_wordImmediate (words : Nat) :
    (wordImmediate words).toInt = (min words maxOffset : Nat) := by
  have bound : min words maxOffset ≤ maxOffset := Nat.min_le_right _ _
  exact Int32.toInt_ofNat_of_lt (Nat.lt_succ_of_le bound)

theorem toInt_neg_wordImmediate (words : Nat) :
    (-wordImmediate words).toInt = -((min words maxOffset : Nat) : Int) := by
  have bound : min words maxOffset ≤ maxOffset := Nat.min_le_right _ _
  unfold maxOffset at bound
  rw [Int32.toInt_neg, toInt_wordImmediate, Int.bmod_eq_of_le]
  · unfold maxOffset
    omega
  · unfold maxOffset
    omega

namespace Emitter

/-- Put the address of a word of the frame into a register. -/
def frameAddress (name : String) (shift : Nat) (target : Register) : Emitter Unit := do
  let pushed := (← context).pushed
  note (.frameSlot name shift pushed)
  emit (.addImmediate target .stack (-wordImmediate (addCount shift pushed)))

/-- Put the address of a name into a register. -/
def addressOf (name : String) (target : Register) : Emitter Address := do
  let address := (← context).resolve name
  match address with
  | .frameLocal shift _ => frameAddress name shift target
  | .parameter shift => frameAddress name shift target
  | .global name _ =>
      note (.globalLabel name (Label.global name).text)
      emit (.loadAddress target (Label.global name).text)
  return address

end Emitter

end ProcLang
