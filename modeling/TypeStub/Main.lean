import TypeStub.Command

namespace TypeStub

-- The bytes of a string as a text.
def Text.ofBytes (bytes : ByteArray) : Text := bytes.toList.map fun b => Char.ofNat b.toNat

def Text.toBytes (text : Text) : ByteArray := ⟨(text.map fun c => c.toNat.toUInt8).toArray⟩

-- A path for the system. One that is not valid in its encoding names no file.
def Text.path (text : Text) : String := (String.fromUTF8? text.toBytes).getD ""

-- The code that the system gives when a file is a directory.
def directoryCode : UInt32 := 21

def readErrorOf : IO.Error → ReadError
  | .inappropriateType _ code _ => if code = directoryCode then .isDirectory else .cannotOpen
  | _ => .cannotOpen

-- The system's own words for an error of renaming.
def renameReason : IO.Error → String
  | .inappropriateType _ _ reason => reason
  | .noFileOrDirectory _ _ reason => reason
  | .permissionDenied _ _ reason => reason
  | .resourceBusy _ reason => reason
  | .unsatisfiedConstraints _ reason => reason
  | .unsupportedOperation _ reason => reason
  | .resourceExhausted _ _ reason => reason
  | e => toString e

namespace Console

def readFile (path : Text) : IO (Except ReadError Text) := do
  try return .ok (Text.ofBytes (← IO.FS.readBinFile path.path))
  catch e => return .error (readErrorOf e)

def readStandardInput : IO Text := do
  return Text.ofBytes (← (← IO.getStdin).readBinToEnd)

def writeFile (path content : Text) : IO Bool := do
  try
    IO.FS.writeBinFile path.path content.toBytes
    return true
  catch _ => return false

def rename (source target : Text) : IO (Option Text) := do
  try
    IO.FS.rename source.path target.path
    return none
  catch e => return some (Text.ofBytes (renameReason e).toUTF8)

-- Removes a file, or else an empty directory. There may be neither.
def remove (path : Text) : IO Unit := do
  try IO.FS.removeFile path.path
  catch _ =>
    try IO.FS.removeDir path.path
    catch _ => return

end Console

instance : Host IO where
  readFile := Console.readFile
  readStandardInput := Console.readStandardInput
  writeFile := Console.writeFile
  rename := Console.rename
  remove := Console.remove
  print text := do (← IO.getStdout).write text.toBytes
  warn text := do (← IO.getStderr).write text.toBytes
  clock := do return (← IO.monoNanosNow) / 1000

end TypeStub

def main (arguments : List String) : IO UInt32 := do
  let status ← TypeStub.Command.runArguments (m := IO) TypeStub.Digest.md5
    (arguments.map fun argument => TypeStub.Text.ofBytes argument.toUTF8)
  return status.toUInt32
