import ProcLang.Command.Run

/-!
# The command line

The command, performed on the real files and streams.
-/

set_option autoImplicit false

namespace ProcLang.Command

/-- The fault with a given number. -/
def FileFault.ofNumber? (number : UInt32) : Option FileFault :=
  match number.toNat with
  | 2 => some .notFound
  | 6 => some .noDevice
  | 13 => some .permissionDenied
  | 20 => some .notDirectory
  | 21 => some .isDirectory
  | 28 => some .noSpace
  | 36 => some .nameTooLong
  | _ => none

/-- The number of a fault as the system reports it, if it has one. -/
def systemNumber? : IO.Error → Option UInt32
  | .noFileOrDirectory _ number _ => some number
  | .permissionDenied _ number _ => some number
  | .inappropriateType _ number _ => some number
  | .resourceExhausted _ number _ => some number
  | .invalidArgument _ number _ => some number
  | .illegalOperation number _ => some number
  | .noSuchThing _ number _ => some number
  | .unsupportedOperation number _ => some number
  | .otherError number _ => some number
  | _ => none

/-- A fault as the system reports it. Its number can come with either sign. -/
def FileFault.ofSystem (error : IO.Error) : FileFault :=
  match systemNumber? error with
  | some number =>
      ((FileFault.ofNumber? number).or (FileFault.ofNumber? (-number))).getD (.other error.toString)
  | none => .other error.toString

/-- Do something with a file, and keep the fault if it cannot be done. -/
def attempt {α : Type} (action : IO α) : IO (Except FileFault α) := do
  match ← action.toBaseIO with
  | .ok value => return .ok value
  | .error error => return .error (.ofSystem error)

/-- All that is left of a stream. -/
partial def readAll (stream : IO.FS.Stream) (before : ByteArray) : IO ByteArray := do
  let chunk ← stream.read 65536
  if chunk.isEmpty then return before else readAll stream (before ++ chunk)

/-- The files and streams of the process. -/
def console : Surroundings IO IO.FS.Stream where
  readFile path := attempt (IO.FS.readBinFile path)
  readStandardInput := do attempt (readAll (← IO.getStdin) ByteArray.empty)
  create path := attempt do return IO.FS.Stream.ofHandle (← IO.FS.Handle.mk path .write)
  openStandardOutput := attempt IO.getStdout
  write sink text := attempt do
    sink.putStr text
    sink.flush
  print text := IO.print text
  report stream := IO.eprint stream.text

end ProcLang.Command

open ProcLang.Command in
/-- The compiler as a command. -/
def main (arguments : List String) : IO UInt32 := do
  return UInt32.ofNat (← perform console arguments)
