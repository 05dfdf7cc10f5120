import JvmClass.Options

/-!
# The command line

The program reads a class file, computes what was asked for anew, and writes the class file back.
`CommandLine.parse` reads its arguments.
-/

namespace JvmClass

/-- What the program is asked to do. -/
structure CommandLine where
  input : String
  /-- Where the result goes; in place of the input, if nowhere is given. -/
  output : Option String := none
  compute : Compute := ⟨false, true⟩
  /-- Whether the constant pool is built anew. -/
  freshPool : Bool := false
  /-- Directories of class files from which superclasses are known. -/
  classPath : List String := []
  skip : Skip := {}
deriving DecidableEq

/-- Why arguments are refused. -/
inductive UsageFault where
  | missingInput
  | unexpected (argument : String)
  | missingValue (option : String)
  | badValue (option value : String)
deriving DecidableEq

def UsageFault.message : UsageFault → String
  | missingInput => "no class file to read"
  | unexpected argument => s!"unexpected argument '{argument}'"
  | missingValue option => s!"a value is required for '{option}'"
  | badValue option value => s!"invalid value '{value}' for '{option}'"

namespace CommandLine

/-- What `--compute` asks for. -/
def compute? : String → Option Compute
  | "frames" => some ⟨false, true⟩
  | "maxs" => some ⟨true, false⟩
  | "none" => some ⟨false, false⟩
  | _ => none

/-- Takes up the value of an option. -/
def withValue (c : CommandLine) (option value : String) : Except UsageFault CommandLine :=
  match option with
  | "-o" | "--output" => .ok { c with output := some value }
  | "--class-path" => .ok { c with classPath := c.classPath ++ [value] }
  | _ =>
    match compute? value with
    | some compute => .ok { c with compute }
    | none => .error (.badValue option value)

/-- Reads arguments, after those before them; `input` is the class file if it has been named. -/
def parseFrom (input : Option String) (c : CommandLine) :
    List String → Except UsageFault CommandLine
  | [] =>
    match input with
    | none => .error .missingInput
    | some input => .ok { c with input }
  | "--fresh-pool" :: rest => parseFrom input { c with freshPool := true } rest
  | "--skip-debug" :: rest => parseFrom input { c with skip := { c.skip with debug := true } } rest
  | argument :: rest =>
    if argument = "-o" || argument = "--output" || argument = "--compute" ||
        argument = "--class-path" then
      match rest with
      | [] => .error (.missingValue argument)
      | value :: rest =>
        match c.withValue argument value with
        | .error fault => .error fault
        | .ok c => parseFrom input c rest
    else if argument.toList.head? = some '-' || input.isSome then .error (.unexpected argument)
    else parseFrom (some argument) c rest

/-- Reads the arguments of the program. -/
def parse (arguments : List String) : Except UsageFault CommandLine :=
  parseFrom none { input := "" } arguments

end CommandLine

end JvmClass
