import ProcLang.Syntax.Node

/-!
# Frames

A procedure keeps its local variables in a frame, and its arguments in the
words below it. Word counts are 32-bit: the size of the frame stops at the
largest count (`Scope.frameSize`), while its extent, which includes the
arguments, exists only if a frame-relative offset can reach all of it
(`Scope.frameExtent?`).
-/

set_option autoImplicit false

namespace ProcLang

/-- The largest word count. -/
def maxCount : Nat := 4294967295

/-- The largest distance a frame-relative offset can express. -/
def maxOffset : Nat := 2147483647

/-- Addition of word counts that stops at the largest count. -/
def addCount (first second : Nat) : Nat :=
  min (first + second) maxCount

/-- Addition of word counts within reach of an offset. -/
def addOffset? (first second : Nat) : Option Nat :=
  if first + second ≤ maxOffset then some (first + second) else none

/-- The names a procedure can use besides the globals. -/
structure Scope where
  locals : List Declaration
  parameters : List String
  deriving DecidableEq, Repr, Inhabited

namespace Scope

/-- The scope outside all procedures. -/
def empty : Scope := ⟨[], []⟩

/-- The words taken by the local variables. -/
def frameSize (scope : Scope) : Nat :=
  scope.locals.foldl (fun total declared => addCount total declared.words) 0

/-- The words of the local variables and the arguments, if an offset can reach
them all. -/
def frameExtent? (scope : Scope) : Option Nat :=
  (scope.locals.map Declaration.words ++ scope.parameters.map fun _ => 1).foldlM addOffset? 0

end Scope

end ProcLang
