import TypeStub.Host
import TypeStub.Load
import TypeStub.Options
import TypeStub.Print.Module
import TypeStub.Syntax.Outline

namespace TypeStub

inductive WriteError
  | cannotWrite
  | cannotReplace (reason : Text)
  deriving DecidableEq, Repr

-- Why the command stopped before its end.
inductive Failure
  | unreadable (path : Text) (reason : ReadError)
  | refused (diagnostic : Diagnostic)
  | unwritable (path : Text) (reason : WriteError)
  deriving DecidableEq, Repr

def ReadError.message (path : Text) : ReadError → Text
  | isDirectory => "is a directory: " ++ path
  | cannotOpen => "failed to open file: " ++ path

def WriteError.message (path : Text) : WriteError → Text
  | cannotWrite => "failed to write file: " ++ path
  | cannotReplace reason => "failed to replace " ++ path ++ ": " ++ reason

namespace Command

-- A line from the command itself.
def notice (message : Text) : Text := "pytdc: " ++ message ++ "\n"

def optionReport (e : OptionError) : Text :=
  match e with
  | .badVersion _ => notice e.message
  | _ => notice e.message ++ notice "argument parse error"

def failureReport : Failure → Text
  | .unreadable path reason => notice (reason.message path)
  | .refused d => d.display ++ "\n"
  | .unwritable path reason => notice (reason.message path)

def standardInput : Text := "-"

-- The name of an input in diagnostics.
def label (input : Text) : Text := if input = standardInput then "<stdin>" else input

def readInput {m : Type → Type} [Monad m] [Host m] (input : Text) : m (Except ReadError Text) :=
  if input = standardInput then return .ok (← Host.readStandardInput) else Host.readFile input

def stagingPath (path : Text) : Text := path ++ ".tmp"

-- Replaces a file at once: the content goes to a file beside it, which then takes its place.
def replaceFile {m : Type → Type} [Monad m] [Host m] (path content : Text) :
    m (Except WriteError Unit) := do
  if ← Host.writeFile (stagingPath path) content then
    match ← Host.rename (stagingPath path) path with
    | none => return .ok ()
    | some reason =>
        Host.remove (stagingPath path)
        return .error (.cannotReplace reason)
  else
    Host.remove (stagingPath path)
    return .error .cannotWrite

def outline (label : Text) (body : List Stmt) : Text :=
  "== AST: " ++ label ++ " ==\n" ++ Outline.module body

def request (options : Options) (input : Text) : Request :=
  { name := options.name
    target := options.target
    filename := some (label input) }

-- A module's text ends its last line.
def printed (module : StubModule) : Text :=
  let text := Print.module module
  if text.getLast?.all (· == '\n') then text else text ++ "\n"

-- The canonical text of one input, with its outline printed on request when the input parses.
def canonical {m : Type → Type} [Monad m] [Host m] (digest : Hasher) (options : Options)
    (input : Text) : ExceptT Failure (StateT Metrics m) Text := do
  match ← readInput (m := m) input with
  | .error e => throw (.unreadable input e)
  | .ok source =>
      if options.dumpAst then
        if let .ok body := parseSource source then
          Host.print (m := m) (outline (label input) body)
      match ← loadMeasured (m := m) Host.clock digest (request options input) source with
      | .error d => throw (.refused d)
      | .ok module => return printed module

def deliver {m : Type → Type} [Monad m] [Host m] (options : Options) (text : Text) :
    ExceptT Failure (StateT Metrics m) Unit := do
  if options.output = [] then Host.print (m := m) text
  else
    match ← replaceFile (m := m) options.output text with
    | .ok () => return
    | .error e => throw (.unwritable options.output e)

-- Nothing is delivered before every input has been read and loaded.
def work {m : Type → Type} [Monad m] [Host m] (digest : Hasher) (options : Options) :
    ExceptT Failure (StateT Metrics m) Unit := do
  let texts ← options.inputs.mapM (canonical (m := m) digest options)
  deliver options texts.flatten
  let metrics ← get
  if options.metrics then Host.warn (m := m) metrics.summaryText
  if options.metricsJson then Host.warn (m := m) metrics.summaryJson

-- The exit status is 0, or 1 after a failure, or 2 after a command line that asks for nothing.
def run {m : Type → Type} [Monad m] [Host m] (digest : Hasher) (options : Options) : m Nat := do
  if options.inputs = [] then
    Host.warn (notice "no input files provided")
    return 2
  match ← ((work digest options).run).run' Metrics.empty with
  | .ok () => return 0
  | .error failure =>
      Host.warn (failureReport failure)
      return 1

def runArguments {m : Type → Type} [Monad m] [Host m] (digest : Hasher) (arguments : List Text) :
    m Nat := do
  match Options.ofArguments arguments with
  | (_, some e) =>
      Host.warn (optionReport e ++ Options.usage)
      return 2
  | (options, none) =>
      if options.help then
        Host.print Options.usage
        return 0
      else run digest options

end Command

end TypeStub
