import TypeStub.Text

namespace TypeStub

-- A directory that is always there: some levels up from the working directory, or the root.
inductive Origin
  | up (levels : Nat)
  | root
  deriving DecidableEq, Repr

def Origin.parent : Origin → Origin
  | up levels => up (levels + 1)
  | root => root

-- A place among the files: down by names from such a directory.
structure Location where
  origin : Origin
  names : List Text
  deriving DecidableEq, Repr

namespace Location

def workingDirectory : Location := ⟨.up 0, []⟩

def root : Location := ⟨.root, []⟩

def parent (location : Location) : Location :=
  if location.names = [] then { location with origin := location.origin.parent }
  else { location with names := location.names.dropLast }

def child (location : Location) (name : Text) : Location :=
  { location with names := location.names ++ [name] }

-- Where one piece of a path leads from a directory.
def step (location : Location) (piece : Text) : Location :=
  if piece = [] ∨ piece = "." then location
  else if piece = ".." then location.parent
  else location.child piece

end Location

inductive Entry
  | file (content : Text)
  | directory
  deriving DecidableEq, Repr

-- What there is besides the directories that are always there.
abbrev Files := List (Location × Entry)

inductive ReadError
  | isDirectory
  | cannotOpen
  deriving DecidableEq, Repr

inductive RenameError
  | missing
  | busy
  | notADirectory
  | isADirectory
  deriving DecidableEq, Repr

def RenameError.message : RenameError → Text
  | missing => "No such file or directory"
  | busy => "Device or resource busy"
  | notADirectory => "Not a directory"
  | isADirectory => "Is a directory"

namespace Files

def entry? (files : Files) (location : Location) : Option Entry :=
  if location.names = [] then some .directory else files.lookup location

def erase (files : Files) (location : Location) : Files := files.filter (·.1 != location)

def set (files : Files) (location : Location) (entry : Entry) : Files :=
  (location, entry) :: files.erase location

-- The pieces of a path lead from directory to directory; only the last one may lead elsewhere.
def walk (files : Files) (start : Location) : List Text → Option Location
  | [] => some start
  | piece :: rest =>
      if files.entry? start = some .directory then walk files (start.step piece) rest else none

-- The length of the longest path that is looked up.
def pathLimit : Nat := 4095

def start (path : Text) : Location :=
  if path.head? = some '/' then .root else .workingDirectory

-- What a path names. The empty path and one beyond the limit name nothing.
def locate? (files : Files) (path : Text) : Option Location :=
  if path = [] ∨ pathLimit < path.length then none
  else files.walk (start path) (path.splitOn '/')

def read (files : Files) (path : Text) : Except ReadError Text :=
  match (files.locate? path).bind files.entry? with
  | some (.file content) => .ok content
  | some .directory => .error .isDirectory
  | none => .error .cannotOpen

-- The longest name that an entry may have.
def nameLimit : Nat := 255

-- Sets the content of a file, which may be a new one in a directory that is there.
def write? (files : Files) (path content : Text) : Option Files := do
  let location ← files.locate? path
  if files.entry? location = some .directory then none
  if location.names.any (nameLimit < ·.length) then none
  return files.set location (.file content)

def hasEntriesIn (files : Files) (location : Location) : Bool :=
  files.any fun entry => entry.1.parent == location

-- Removes a file or an empty directory.
def remove (files : Files) (path : Text) : Files :=
  match files.locate? path with
  | some location => if files.hasEntriesIn location then files else files.erase location
  | none => files

-- Whether a path ends in a name of an entry, and not in dots or at the root.
def endsInName (path : Text) : Bool :=
  match ((path.splitOn '/').filter (· != [])).getLast? with
  | some name => name != ("." : Text) && name != (".." : Text)
  | none => false

-- Moves a file over what the target names, which has to be a file or nothing.
def rename (files : Files) (source target : Text) : Except RenameError Files := do
  unless endsInName target do throw .busy
  let some origin := files.locate? source | throw .missing
  let some (.file content) := files.entry? origin | throw .missing
  if target.getLast? = some '/' then throw .notADirectory
  let some location := files.locate? target | throw .missing
  if files.entry? location = some .directory then throw .isADirectory
  return (files.erase origin).set location (.file content)

end Files

end TypeStub
