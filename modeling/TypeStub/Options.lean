import TypeStub.Number.Literal
import TypeStub.Target

namespace TypeStub

-- What the command line asks for. An empty output stands for standard output.
structure Options where
  help : Bool
  metrics : Bool
  metricsJson : Bool
  dumpAst : Bool
  output : Text
  inputs : List Text
  name : Option Text
  target : Target
  deriving DecidableEq, Repr

inductive OptionError
  | missingOutput
  | unknownOption (argument : Text)
  | severalInputs
  | badVersion (value : Text)
  deriving DecidableEq, Repr

def OptionError.message : OptionError → Text
  | missingOutput => "missing filename after '-o'"
  | unknownOption argument => "unknown option '" ++ argument ++ "'"
  | severalInputs => "cannot use -o with more than one input"
  | badVersion value => "invalid --python-version value '" ++ value ++ "'"

-- One setting or input of a command line.
inductive Setting
  | help
  | metrics
  | metricsJson
  | dumpAst
  | output (path : Text)
  | name (module : Text)
  | version (components : List Int)
  | platform (name : Text)
  | input (path : Text)
  deriving DecidableEq, Repr

namespace Options

def standard : Options :=
  { help := false
    metrics := false
    metricsJson := false
    dumpAst := false
    output := []
    inputs := []
    name := none
    target := Target.standard }

-- The value of a setting replaces an earlier one; an input joins the others.
def apply (options : Options) : Setting → Options
  | .help => { options with help := true }
  | .metrics => { options with metrics := true }
  | .metricsJson => { options with metricsJson := true }
  | .dumpAst => { options with dumpAst := true }
  | .output path => { options with output := path }
  | .name module => { options with name := some module }
  | .version components => { options with target := { options.target with version := components } }
  | .platform name => { options with target := { options.target with platform := name } }
  | .input path => { options with inputs := options.inputs ++ [path] }

-- One output cannot hold what comes from several inputs.
def conflict? (options : Options) : Option OptionError :=
  if options.output ≠ [] ∧ 1 < options.inputs.length then some .severalInputs else none

end Options

namespace Setting

-- The greatest component of a version.
def greatestComponent : Nat := 2147483647

-- A component of a version is a number in range. A minus sign is allowed before zero.
def component? (piece : Text) : Option Int :=
  match piece with
  | '-' :: digits => if readNat? 10 digits = some 0 then some 0 else none
  | digits =>
      match readNat? 10 digits with
      | some value => if value ≤ greatestComponent then some (value : Int) else none
      | none => none

-- A version is one to three components with dots between them.
def version? (value : Text) : Option (List Int) :=
  let pieces := value.splitOn '.'
  if pieces.length ≤ 3 then pieces.mapM component? else none

def flag? (argument : Text) : Option Setting :=
  if argument = "-h" ∨ argument = "--help" then some .help
  else if argument = "--metrics" then some .metrics
  else if argument = "--metrics-json" then some .metricsJson
  else if argument = "--dump-ast" then some .dumpAst
  else none

-- An argument that is none of the options is an input, unless it looks like an option. A dash
-- alone names standard input.
def inputOf (argument : Text) : Except OptionError Setting :=
  match argument with
  | '-' :: _ :: _ => .error (.unknownOption argument)
  | _ => .ok (.input argument)

-- An option with its value after an equals sign.
def valued? (argument : Text) : Option (Except OptionError Setting) :=
  match Text.after? "--name=" argument with
  | some module => some (.ok (.name module))
  | none =>
      match Text.after? "--python-version=" argument with
      | some value => some <|
          match version? value with
          | some components => .ok (.version components)
          | none => .error (.badVersion value)
      | none => (Text.after? "--platform=" argument).map fun name => .ok (.platform name)

-- The setting in one argument other than `--` and a bare `-o`.
def ofArgument (argument : Text) : Except OptionError Setting :=
  match Text.after? "-o" argument with
  | some path => .ok (.output path)
  | none =>
      match flag? argument with
      | some setting => .ok setting
      | none => (valued? argument).getD (inputOf argument)

end Setting

namespace Options

-- The options read so far after these arguments, and why reading stopped before their end. All
-- arguments after `--` are inputs, and `-o` takes the argument after it, whatever that is.
def read (options : Options) : List Text → Options × Option OptionError
  | [] => (options, options.conflict?)
  | argument :: rest =>
      if argument = "--" then
        let options := (rest.map Setting.input).foldl apply options
        (options, options.conflict?)
      else if argument = "-o" then
        match rest with
        | [] => (options, some .missingOutput)
        | path :: rest => read (options.apply (.output path)) rest
      else
        match Setting.ofArgument argument with
        | .ok setting => read (options.apply setting) rest
        | .error e => (options, some e)

def ofArguments (arguments : List Text) : Options × Option OptionError :=
  read standard arguments

def usage : Text :=
  List.flatMap (fun line : String => line.toList ++ ['\n'])
    ["pytdc [options] file...",
     "",
     "Parse pytd stub files and print them in canonical form. A file of '-'",
     "reads standard input.",
     "",
     "Options:",
     "  -h, --help                Print this help and exit",
     "  -o <file>                 Write the output to <file> (default: stdout)",
     "  --name=<module>           Module name; qualifies all top-level names",
     "                            (default: md5 of the source)",
     "  --python-version=<a.b.c>  Target version for conditions (default: 2.7.6)",
     "  --platform=<name>         Target platform for conditions (default: linux)",
     "  --metrics                 Print stage timings to stderr",
     "  --metrics-json            Print stage timings as JSON to stderr",
     "  --dump-ast                Print the raw declaration tree before building",
     "  --                        End of options"]

end Options

end TypeStub
