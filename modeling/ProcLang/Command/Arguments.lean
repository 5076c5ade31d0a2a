/-!
# Arguments of the command

The command takes one input path and a few options. An option has a long name
and may have a short one. Short options can share a dash. The value of an option
follows it as the next argument, after an equals sign, or, for a short option,
directly. Two dashes end the options, and a single dash is an ordinary value.

Arguments are taken from left to right, and the first one that is wrong, or that
asks for the version or for help, decides.
-/

set_option autoImplicit false

namespace ProcLang.Command

/-- What is written for a program. -/
inductive Emission where
  | assembly
  | outline
  | json
  deriving DecidableEq, Repr, Inhabited

/-- The form of output with a given name. -/
def Emission.ofName? : String → Option Emission
  | "asm" => some .assembly
  | "tree" => some .outline
  | "json" => some .json
  | _ => none

/-- What a run of the compiler is asked to do. -/
structure Settings where
  /-- The input file, or the standard input. -/
  input : Option String
  /-- The output file, or the standard output. -/
  output : Option String
  /-- What is written. -/
  emission : Emission
  /-- The procedure that is called first. -/
  entry : String
  /-- Whether remarks are emitted. -/
  annotate : Bool
  /-- Whether the input is a tree in JSON. -/
  fromJson : Bool
  /-- How often more of the log was asked for. -/
  verbosity : Nat
  deriving DecidableEq, Repr, Inhabited

/-- What the arguments ask for. -/
inductive Request where
  | compile (settings : Settings)
  | version
  | help
  deriving DecidableEq, Repr, Inhabited

/-- Options without a value. -/
inductive Flag where
  | annotate
  | fromJson
  | verbose
  | version
  | help
  deriving DecidableEq, Repr, Inhabited

/-- Options with a value. -/
inductive Parameter where
  | output
  | emit
  | entry
  deriving DecidableEq, Repr, Inhabited

/-- An option. -/
inductive CommandOption where
  | flag (flag : Flag)
  | parameter (parameter : Parameter)
  deriving DecidableEq, Repr, Inhabited

/-- Why arguments are refused. -/
inductive UsageFault where
  | unknownOption (name : String)
  | missingValue (name : String)
  | unneededValue (name : String)
  | invalidValue (name value : String)
  | repeated (name : String)
  | unexpectedArgument (argument : String)
  deriving DecidableEq, Repr, Inhabited

/-- The wording of a refusal. -/
def UsageFault.message : UsageFault → String
  | unknownOption name => "unexpected argument '" ++ name ++ "' found"
  | missingValue name => "a value is required for '" ++ name ++ "' but none was supplied"
  | unneededValue name => "unexpected value for '" ++ name ++ "' found; no more were expected"
  | invalidValue name value => "invalid value '" ++ value ++ "' for '" ++ name ++ "'"
  | repeated name => "the argument '" ++ name ++ "' cannot be used multiple times"
  | unexpectedArgument argument => "unexpected argument '" ++ argument ++ "' found"

namespace Flag

/-- The long name of a flag. -/
def name : Flag → String
  | annotate => "annotate"
  | fromJson => "from-json"
  | verbose => "verbose"
  | version => "version"
  | help => "help"

end Flag

namespace Parameter

/-- The long name of an option with a value. -/
def name : Parameter → String
  | output => "output"
  | emit => "emit"
  | entry => "entry"

end Parameter

namespace CommandOption

/-- The option with a given long name. -/
def ofLongName? : String → Option CommandOption
  | "annotate" => some (.flag .annotate)
  | "from-json" => some (.flag .fromJson)
  | "verbose" => some (.flag .verbose)
  | "version" => some (.flag .version)
  | "help" => some (.flag .help)
  | "output" => some (.parameter .output)
  | "emit" => some (.parameter .emit)
  | "entry" => some (.parameter .entry)
  | _ => none

/-- The option with a given short name. -/
def ofShortName? : Char → Option CommandOption
  | 'v' => some (.flag .verbose)
  | 'V' => some (.flag .version)
  | 'h' => some (.flag .help)
  | 'o' => some (.parameter .output)
  | _ => none

end CommandOption

/-- What has been given so far. -/
structure Given where
  input : Option String
  output : Option String
  emission : Option Emission
  entry : Option String
  annotate : Bool
  fromJson : Bool
  verbosity : Nat
  deriving DecidableEq, Repr, Inhabited

namespace Given

/-- Nothing was given. -/
def nothing : Given := ⟨none, none, none, none, false, false, 0⟩

/-- The settings, with the choices made if nothing is said. -/
def settings (given : Given) : Settings :=
  ⟨given.input, given.output, given.emission.getD .assembly, given.entry.getD "main",
    given.annotate, given.fromJson, given.verbosity⟩

/-- Take an argument that is no option: the input path. -/
def setInput (given : Given) (path : String) : Except UsageFault Given :=
  if given.input.isSome then .error (.unexpectedArgument path)
  else if path.isEmpty then .error (.invalidValue "input" path)
  else .ok { given with input := some path }

/-- Take the value of an option. -/
def set (given : Given) (parameter : Parameter) (value : String) : Except UsageFault Given :=
  match parameter with
  | .output =>
      if given.output.isSome then .error (.repeated parameter.name)
      else if value.isEmpty then .error (.invalidValue parameter.name value)
      else .ok { given with output := some value }
  | .emit =>
      if given.emission.isSome then .error (.repeated parameter.name)
      else
        match Emission.ofName? value with
        | some emission => .ok { given with emission := some emission }
        | none => .error (.invalidValue parameter.name value)
  | .entry =>
      if given.entry.isSome then .error (.repeated parameter.name)
      else .ok { given with entry := some value }

end Given

/-- Where one argument leads. -/
inductive Step where
  /-- To the next argument. -/
  | next (given : Given)
  /-- To the value of an option. -/
  | await (parameter : Parameter) (given : Given)
  /-- To the end of the arguments. -/
  | finished (request : Request)
  deriving DecidableEq, Repr, Inhabited

namespace Given

/-- Take a flag. All but one can be given once only. -/
def raise (given : Given) (flag : Flag) : Except UsageFault Step :=
  match flag with
  | .annotate =>
      if given.annotate then .error (.repeated flag.name)
      else .ok (.next { given with annotate := true })
  | .fromJson =>
      if given.fromJson then .error (.repeated flag.name)
      else .ok (.next { given with fromJson := true })
  | .verbose => .ok (.next { given with verbosity := given.verbosity + 1 })
  | .version => .ok (.finished .version)
  | .help => .ok (.finished .help)

/-- Take a value and go on. -/
def store (given : Given) (parameter : Parameter) (value : String) : Except UsageFault Step :=
  match given.set parameter value with
  | .ok given => .ok (.next given)
  | .error fault => .error fault

/-- Take short options that share a dash. A value may follow the last one
directly or after an equals sign. -/
def takeShort (given : Given) : List Char → Except UsageFault Step
  | [] => .ok (.next given)
  | letter :: rest =>
      match CommandOption.ofShortName? letter with
      | none => .error (.unknownOption (String.ofList ['-', letter]))
      | some (.flag flag) =>
          match given.raise flag with
          | .ok (.next given) => takeShort given rest
          | other => other
      | some (.parameter parameter) =>
          match rest with
          | [] => .ok (.await parameter given)
          | '=' :: value => given.store parameter (String.ofList value)
          | value => given.store parameter (String.ofList value)

/-- Take a long option, with the value after its equals sign if it has one. -/
def takeLong (given : Given) (name : String) (value : Option String) : Except UsageFault Step :=
  match CommandOption.ofLongName? name, value with
  | none, _ => .error (.unknownOption name)
  | some (.flag flag), none => given.raise flag
  | some (.flag _), some _ => .error (.unneededValue name)
  | some (.parameter parameter), none => .ok (.await parameter given)
  | some (.parameter parameter), some value => given.store parameter value

/-- Take one argument. -/
def take (given : Given) (argument : String) : Except UsageFault Step :=
  match argument.toList with
  | '-' :: '-' :: long =>
      match long.dropWhile (· != '=') with
      | [] => given.takeLong (String.ofList long) none
      | _ :: value =>
          given.takeLong (String.ofList (long.takeWhile (· != '='))) (some (String.ofList value))
  | '-' :: letter :: rest => given.takeShort (letter :: rest)
  | _ =>
      match given.setInput argument with
      | .ok given => .ok (.next given)
      | .error fault => .error fault

end Given

/-- Whether an argument is no value but an option or the end of the options. -/
def startsOption (argument : String) : Bool :=
  match argument.toList with
  | '-' :: _ :: _ => true
  | _ => false

/-- Take arguments after the end of the options. -/
def takePaths (given : Given) : List String → Except UsageFault Request
  | [] => .ok (.compile given.settings)
  | path :: rest =>
      match given.setInput path with
      | .ok given => takePaths given rest
      | .error fault => .error fault

/-- Take arguments. -/
def takeArguments (given : Given) : List String → Except UsageFault Request
  | [] => .ok (.compile given.settings)
  | argument :: rest =>
      if argument = "--" then takePaths given rest
      else
        match given.take argument with
        | .error fault => .error fault
        | .ok (.finished request) => .ok request
        | .ok (.next given) => takeArguments given rest
        | .ok (.await parameter given) =>
            match rest with
            | [] => .error (.missingValue parameter.name)
            | value :: rest =>
                if startsOption value then .error (.missingValue parameter.name)
                else
                  match given.set parameter value with
                  | .ok given => takeArguments given rest
                  | .error fault => .error fault

/-- What a list of arguments asks for. -/
def parseArguments (arguments : List String) : Except UsageFault Request :=
  takeArguments .nothing arguments

end ProcLang.Command
