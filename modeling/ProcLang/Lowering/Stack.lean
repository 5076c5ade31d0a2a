import ProcLang.Lowering.Storage

/-!
# The stack

The stack grows upward, and the stack register points at the first free word.
A procedure makes its frame by moving the stack register up over it, and gives
it back by moving down again. The words pushed above the frame are counted.
-/

set_option autoImplicit false

namespace ProcLang.Emitter

/-- Push a register. -/
def push (register : Register) : Emitter Unit := do
  emit (.store register .stack 0)
  emit (.addImmediate .stack .stack 1)
  change fun context => do
    return { context with pushed := ← countUp context.pushed 1 }

/-- Pop a register. -/
def pop (register : Register) : Emitter Unit := do
  emit (.addImmediate .stack .stack (-1))
  emit (.load register .stack 0)
  change fun context => do
    return { context with pushed := ← countDown context.pushed 1 }

/-- Forget a number of words that were pushed, if there are any. -/
def drop (words : Nat) : Emitter Unit := do
  if 0 < words then
    emit (.addImmediate .stack .stack (-wordImmediate words))
    change fun context => do
      return { context with pushed := ← countDown context.pushed words }

/-- Make the frame of a procedure. -/
def makeFrame (words : Nat) : Emitter Unit := do
  if 0 < words then emit (.addImmediate .stack .stack (wordImmediate words))

/-- Give the frame of a procedure back and return to the caller. -/
def leaveFrame (words : Nat) : Emitter Unit := do
  if 0 < words then emit (.addImmediate .stack .stack (-wordImmediate words))
  emit .ret

end ProcLang.Emitter
