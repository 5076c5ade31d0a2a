import ProcLang.Text.Separated

/-!
# Files

A file system is a tree of directories with files and devices in it. A path is
followed step by step, from the root if it starts with a slash and else from the
working directory. Every step but the last has to lead to a directory, and
above the root there is the root.

A link stands for another place of the tree. A step to a link is a step to that
place, so the way up from there does not lead back to where the link is. Some
directories show the state of the system, and no file can be made below them.

A file has content. A device stands for one of the streams of a run, or takes or
refuses all that is written to it. A directory can be neither read nor written.

A real file system can do more:

- A link is followed once. What it stands for is taken to be no link, and the way
  there to pass none.
- A file that is there can be read and written by every run. Only making a file can
  be refused.
- A device that never ends would keep its reader forever. It is read as if it were
  empty.
-/

set_option autoImplicit false

namespace ProcLang.Command

/-- Why a file could not be used. -/
inductive FileFault where
  | notFound
  | noDevice
  | permissionDenied
  | notDirectory
  | isDirectory
  | noSpace
  | nameTooLong
  | notText
  | other (message : String)
  deriving DecidableEq, Repr, Inhabited

/-- The wording of a fault, with its number if the system has one for it. -/
def FileFault.message : FileFault → String
  | notFound => "No such file or directory (os error 2)"
  | noDevice => "No such device or address (os error 6)"
  | permissionDenied => "Permission denied (os error 13)"
  | notDirectory => "Not a directory (os error 20)"
  | isDirectory => "Is a directory (os error 21)"
  | noSpace => "No space left on device (os error 28)"
  | nameTooLong => "File name too long (os error 36)"
  | notText => "stream did not contain valid UTF-8"
  | other message => message

/-- The text that bytes encode. -/
def decodeText (bytes : ByteArray) : Except FileFault String :=
  match String.fromUTF8? bytes with
  | some text => .ok text
  | none => .error .notText

/-! ## Paths -/

/-- The most bytes that one name may have. -/
def maxNameBytes : Nat := 255

/-- The most bytes that a path may have. -/
def maxPathBytes : Nat := 4095

/-- The parts of a path between its slashes. -/
def pathParts (path : String) : List String :=
  (Separated.split '/' path.toList).map String.ofList

/-- Whether a part of a path leads nowhere. -/
def staysPut (part : String) : Bool :=
  part = "" || part = "."

/-- The parts of a path to be written to. A path that ends in a slash can only be
that of a directory, whatever its last name is, so that name is not looked up. -/
def writableParts (path : String) : List String :=
  let parts := pathParts path
  if parts.getLast? = some "" then
    (parts.reverse.dropWhile (· = "")).reverse.dropLast ++ ["."]
  else parts

/-! ## Trees -/

/-- Files that are no storage. -/
inductive Device where
  /-- Nothing can be read from it, and what is written to it is lost. -/
  | null
  /-- It never ends, and what is written to it is lost. -/
  | endless
  /-- Nothing can be written to it. -/
  | full
  /-- The terminal of a run, which has none. -/
  | terminal
  | standardInput
  | standardOutput
  | standardError
  deriving DecidableEq, Repr, Inhabited

local instance decidableEqBytes : DecidableEq ByteArray := ByteArray.instDecidableEq

/-- What a directory has under a name, besides other directories. -/
inductive Entry where
  | file (content : ByteArray)
  | device (device : Device)
  deriving DecidableEq

/-- What a path leads to. -/
inductive Place where
  | entry (key : List String) (entry : Entry)
  | absent (key : List String)
  | directory
  deriving DecidableEq

/-- A file system. Places are given by the names that lead to them from the
root. -/
structure Files where
  entries : List (List String × Entry)
  /-- Directories that are there also when they are empty. -/
  directories : List (List String)
  /-- Links and what they stand for, which is no link itself. -/
  links : List (List String × List String)
  /-- Directories below which no file can be made, and why. -/
  refusals : List (List String × FileFault)
  deriving DecidableEq

namespace Files

/-- The directories of a system. -/
def standardDirectories : List (List String) :=
  [["boot"], ["dev", "pts"], ["dev", "shm"], ["etc"], ["home"], ["media"], ["mnt"], ["opt"],
    ["proc", "self", "fd"], ["proc", "sys"], ["root"], ["run", "lock"], ["srv"], ["sys", "block"],
    ["sys", "bus"], ["sys", "class"], ["sys", "dev"], ["sys", "devices"], ["sys", "firmware"],
    ["sys", "fs"], ["sys", "kernel"], ["sys", "module"], ["sys", "power"], ["tmp"], ["usr", "bin"],
    ["usr", "games"], ["usr", "include"], ["usr", "lib"], ["usr", "lib64"], ["usr", "libexec"],
    ["usr", "local"], ["usr", "sbin"], ["usr", "share"], ["usr", "src"], ["var", "backups"],
    ["var", "cache"], ["var", "lib"], ["var", "local"], ["var", "log"], ["var", "mail"],
    ["var", "opt"], ["var", "spool"], ["var", "tmp"]]

/-- The devices of a system. -/
def standardDevices : List (List String × Entry) :=
  [(["dev", "null"], .device .null), (["dev", "zero"], .device .endless),
    (["dev", "random"], .device .endless), (["dev", "urandom"], .device .endless),
    (["dev", "full"], .device .full), (["dev", "tty"], .device .terminal),
    (["proc", "self", "fd", "0"], .device .standardInput),
    (["proc", "self", "fd", "1"], .device .standardOutput),
    (["proc", "self", "fd", "2"], .device .standardError)]

/-- The links of a system with a given working directory. -/
def standardLinks (directory : List String) : List (List String × List String) :=
  [(["bin"], ["usr", "bin"]), (["lib"], ["usr", "lib"]), (["lib64"], ["usr", "lib64"]),
    (["sbin"], ["usr", "sbin"]), (["var", "lock"], ["run", "lock"]), (["var", "run"], ["run"]),
    (["dev", "fd"], ["proc", "self", "fd"]), (["dev", "stdin"], ["proc", "self", "fd", "0"]),
    (["dev", "stdout"], ["proc", "self", "fd", "1"]),
    (["dev", "stderr"], ["proc", "self", "fd", "2"]), (["proc", "self", "cwd"], directory),
    (["proc", "self", "root"], [])]

/-- The directories of a system that show its state and hold no files. -/
def standardRefusals : List (List String × FileFault) :=
  [(["proc"], .notFound), (["sys"], .permissionDenied)]

/-- A system with given files in its working directory. -/
def standard (directory : List String) (files : List (String × ByteArray)) : Files where
  entries :=
    standardDevices ++ files.map fun (path, content) => (directory ++ pathParts path, .file content)
  directories := directory :: standardDirectories
  links := standardLinks directory
  refusals := standardRefusals

/-- The entry at a place. -/
def entry? (files : Files) (key : List String) : Option Entry :=
  (files.entries.find? fun entry => entry.1 == key).map Prod.snd

/-- Whether there is a directory at a place. -/
def isDirectory (files : Files) (key : List String) : Bool :=
  files.directories.any key.isPrefixOf ||
    files.entries.any fun entry => key.isPrefixOf entry.1 && key != entry.1

/-- The place that a place stands for: another one if it is a link. -/
def resolveLink (files : Files) (key : List String) : List String :=
  match files.links.find? fun link => link.1 == key with
  | some link => link.2
  | none => key

/-- Why no file can be made at a place, if so. -/
def refusal? (files : Files) (key : List String) : Option FileFault :=
  (files.refusals.find? fun refusal => refusal.1.isPrefixOf key).map Prod.snd

/-- Follow the parts of a path from a directory. What is not there yet has to have a
directory to be in. A name is too long only where it could be the name of a file. -/
def follow (files : Files) (directory : List String) : List String → Except FileFault Place
  | [] => .ok .directory
  | part :: rest =>
      if staysPut part then follow files directory rest
      else if part = ".." then follow files directory.dropLast rest
      else if maxNameBytes < part.utf8ByteSize && (files.refusal? directory).isNone then
        .error .nameTooLong
      else
        let key := files.resolveLink (directory ++ [part])
        match files.entry? key with
        | some entry => if rest.isEmpty then .ok (.entry key entry) else .error .notDirectory
        | none =>
            if files.isDirectory key then follow files key rest
            else if rest.isEmpty && files.isDirectory key.dropLast then .ok (.absent key)
            else .error .notFound

/-- Follow a path, given by its parts, from a working directory. -/
def followFrom (files : Files) (directory : List String) : List String → Except FileFault Place
  | "" :: rest => files.follow [] rest
  | parts => files.follow directory parts

/-- Where a path leads for reading. -/
def locate (files : Files) (directory : List String) (path : String) : Except FileFault Place :=
  if maxPathBytes < path.utf8ByteSize then .error .nameTooLong
  else files.followFrom directory (pathParts path)

/-- Where a path leads for writing. -/
def locateWritable (files : Files) (directory : List String) (path : String) :
    Except FileFault Place :=
  if maxPathBytes < path.utf8ByteSize then .error .nameTooLong
  else files.followFrom directory (writableParts path)

/-- Give a file a content. -/
def write (files : Files) (key : List String) (content : ByteArray) : Files :=
  { files with
    entries := files.entries.filter (fun entry => entry.1 != key) ++ [(key, .file content)] }

end Files

/-! ## Reading and writing -/

/-- What a run can see. -/
structure World where
  standardInput : ByteArray
  /-- The names that lead from the root to the working directory. -/
  directory : List String
  files : Files
  deriving DecidableEq

/-- What is written to. -/
inductive Sink where
  | standardOutput
  | standardError
  /-- What is written is lost. -/
  | nowhere
  /-- Nothing can be written. -/
  | full
  | file (key : List String)
  deriving DecidableEq, Repr, Inhabited

/-- Writing to a device. -/
def Device.sink : Device → Except FileFault Sink
  | null => .ok .nowhere
  | endless => .ok .nowhere
  | full => .ok .full
  | terminal => .error .noDevice
  | standardInput => .ok .nowhere
  | standardOutput => .ok .standardOutput
  | standardError => .ok .standardError

namespace World

/-- What can be read from a device. A device that never ends has no last byte, and
is taken to give nothing. -/
def readDevice (world : World) : Device → Except FileFault ByteArray
  | .standardInput => .ok world.standardInput
  | .terminal => .error .noDevice
  | _ => .ok ByteArray.empty

/-- The bytes at a path. -/
def read (world : World) (path : String) : Except FileFault ByteArray :=
  match world.files.locate world.directory path with
  | .error fault => .error fault
  | .ok .directory => .error .isDirectory
  | .ok (.absent _) => .error .notFound
  | .ok (.entry _ (.file content)) => .ok content
  | .ok (.entry _ (.device device)) => world.readDevice device

/-- What a path leads to for writing. A file that is not there is made. -/
def create (world : World) (path : String) : Except FileFault Sink :=
  match world.files.locateWritable world.directory path with
  | .error fault => .error fault
  | .ok .directory => .error .isDirectory
  | .ok (.absent key) =>
      match world.files.refusal? key with
      | some fault => .error fault
      | none => .ok (.file key)
  | .ok (.entry key (.file _)) => .ok (.file key)
  | .ok (.entry _ (.device device)) => device.sink

end World

end ProcLang.Command
