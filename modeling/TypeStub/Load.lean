import TypeStub.Declare
import TypeStub.Digest
import TypeStub.Grammar.Stub
import TypeStub.Metrics
import TypeStub.Qualify
import TypeStub.Unique

namespace TypeStub

-- How a stub is to be loaded. Without a name it is named by the digest of its source; the filename
-- is for diagnostics only.
structure Request where
  name : Option Text
  target : Target
  filename : Option Text

namespace Load

def moduleName (digest : Hasher) (request : Request) (source : Text) : Except DigestError Text :=
  match request.name with
  | some name => .ok name
  | none => digest.hex source

-- The module that statements declare for a target. The typing module goes without the built-ins.
def build (name : Text) (target : Target) (body : List Stmt) : Except Fault Declare.Built :=
  match Prescan.tree (name != "typing") target body with
  | .error fault => .error fault
  | .ok scan =>
      match Declare.moduleOf name scan.liveness body ⟨scan.names, .none⟩ with
      | .ok built _ => .ok built
      | .error fault _ => .error fault

def validate (built : Declare.Built) : Except Fault Unit :=
  match Unique.fault? built.classLines built.module with
  | some fault => .error fault
  | none => .ok ()

-- An explicit name qualifies the module's names.
def qualify (request : Request) (module : StubModule) : StubModule :=
  match request.name with
  | some name => Qualify.module name module
  | none => module

def faultDiagnostic (fault : Fault) : Diagnostic :=
  { message := fault.cause.message
    line := fault.line
    filename := none
    text := none
    column := none }

def inFile (request : Request) (d : Diagnostic) : Diagnostic :=
  { d with filename := request.filename }

def ofFault (request : Request) (fault : Fault) : Diagnostic :=
  inFile request (faultDiagnostic fault)

-- A source that cannot be named is refused before it is read.
def ofDigestError (request : Request) (e : DigestError) : Diagnostic :=
  inFile request
    { message := e.message
      line := none
      filename := none
      text := none
      column := none }

-- The module of a source under this name, or why there is none.
def loadAs (name : Text) (request : Request) (source : Text) : Except Diagnostic StubModule :=
  match parseSource source with
  | .error d => .error (inFile request d)
  | .ok body =>
      match build name request.target body with
      | .error fault => .error (ofFault request fault)
      | .ok built =>
          match validate built with
          | .error fault => .error (ofFault request fault)
          | .ok () => .ok (qualify request built.module)

end Load

open Load

-- The module of a source, or why there is none.
def load (digest : Hasher) (request : Request) (source : Text) : Except Diagnostic StubModule :=
  match moduleName digest request source with
  | .error e => .error (ofDigestError request e)
  | .ok name => loadAs name request source

namespace Load

-- Runs a stage between two readings of a clock in microseconds.
def timed {m : Type → Type} [Monad m] {α : Type} (clock : m Nat) (stage : Text) (work : Unit → α) :
    StateT Metrics m α := do
  let started ← clock
  modify (·.start stage started)
  let result := work ()
  let stopped ← clock
  modify (·.stop stage stopped)
  return result

def failed (m : Metrics) : Metrics := m.setGauge "parse.ok" 0

def countOf {α : Type} (items : List α) : UInt64 := items.length.toUInt64

def succeeded (module : StubModule) (m : Metrics) : Metrics :=
  let methods := module.classes.flatMap (·.methods)
  ((((m.count "build.classes" (countOf module.classes)).count
    "build.functions" (countOf module.functions)).count
    "build.methods" (countOf methods)).count
    "build.constants" (countOf module.constants)).count
    "parse.inputs" 1 |>.setGauge "parse.ok" 1

-- The same as `loadAs`, recording its stages and counts.
def loadMeasuredAs {m : Type → Type} [Monad m] (clock : m Nat) (name : Text) (request : Request)
    (source : Text) : StateT Metrics m (Except Diagnostic StubModule) := do
  let (lines, tokens) ← timed clock "Lex" fun _ =>
    let lines := sourceLines source
    (lines, tokenize lines)
  let parsed ← timed clock "Parse" fun _ => parseLines lines tokens
  modify (·.count "lex.tokens" (countOf tokens))
  match parsed with
  | .error d =>
      modify failed
      return .error (inFile request d)
  | .ok body =>
      let built ← timed clock "Build" fun _ => build name request.target body
      match built with
      | .error fault =>
          modify failed
          return .error (ofFault request fault)
      | .ok built =>
          let valid ← timed clock "Validate" fun _ => validate built
          match valid with
          | .error fault =>
              modify failed
              return .error (ofFault request fault)
          | .ok () =>
              let module := qualify request built.module
              modify (succeeded module)
              return .ok module

end Load

-- The same as `load`, recording its stages and counts. No stage has started where the digest fails.
def loadMeasured {m : Type → Type} [Monad m] (clock : m Nat) (digest : Hasher) (request : Request)
    (source : Text) : StateT Metrics m (Except Diagnostic StubModule) :=
  match moduleName digest request source with
  | .error e => do
      modify failed
      return .error (ofDigestError request e)
  | .ok name => loadMeasuredAs clock name request source

end TypeStub
