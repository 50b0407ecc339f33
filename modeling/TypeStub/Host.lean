import TypeStub.Files

namespace TypeStub

-- What the command needs of the system it runs on: files by their paths, the standard streams,
-- and a clock in microseconds. A write may be refused, also when some of it is done; a failed
-- renaming gives its reason.
class Host (m : Type → Type) where
  readFile : Text → m (Except ReadError Text)
  readStandardInput : m Text
  writeFile : Text → Text → m Bool
  rename : Text → Text → m (Option Text)
  remove : Text → m Unit
  print : Text → m Unit
  warn : Text → m Unit
  clock : m Nat

-- A system as a value: its files, the rest of its standard input, what was written to standard
-- output and standard error, and how many bytes of a content find room in a file, if not all do.
structure World where
  files : Files
  input : Text
  output : Text
  errors : Text
  room : Option Nat

namespace World

-- What is written of a content.
def fitting (room : Option Nat) (content : Text) : Text := content.take (room.getD content.length)

-- A write that finds no room for all of a content is refused. The part that found room stays.
def writeFile (path content : Text) : StateM World Bool := fun world =>
  let written := fitting world.room content
  match world.files.write? path written with
  | some files => (written == content, { world with files := files })
  | none => (false, world)

def rename (source target : Text) : StateM World (Option Text) := fun world =>
  match world.files.rename source target with
  | .ok files => (none, { world with files := files })
  | .error e => (some e.message, world)

-- The clock of a world stands still.
instance : Host (StateM World) where
  readFile path := return (← get).files.read path
  readStandardInput := modifyGet fun world => (world.input, { world with input := [] })
  writeFile := writeFile
  rename := rename
  remove path := modify fun world => { world with files := world.files.remove path }
  print text := modify fun world => { world with output := world.output ++ text }
  warn text := modify fun world => { world with errors := world.errors ++ text }
  clock := return 0

end World

end TypeStub
