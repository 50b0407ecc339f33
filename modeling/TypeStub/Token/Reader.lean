import TypeStub.Token.Stream

namespace TypeStub

-- A reader holds one named source at a time and keeps its tokens once they have been asked for. The
-- row at which it stands, the open brackets and whether the line before is continued are part of it
-- as well: a scan leaves them as they are where it ends, be that at an error.
structure Reader where
  name : Text
  lines : List Text
  finished : Bool
  found : List Token
  row : Nat
  depth : Nat
  joined : Bool

namespace Reader

def fresh : Reader := ⟨[], [], false, [], 0, 0, false⟩

def push (reader : Reader) (source name : Text) : Reader :=
  { reader with name := name, lines := sourceLines source, finished := false, found := [] }

def emit (reader : Reader) (tokens : List Token) : Reader :=
  { reader with found := reader.found ++ tokens }

-- The reader at a place of its source, with what it knows of the lines before.
def moveTo (reader : Reader) (row depth : Nat) (joined : Bool) : Reader :=
  { reader with row := row, depth := depth, joined := joined }

-- Reads the lines from the reader's row on. After a lexical error no line is read.
def scan (reader : Reader) (indents : List Nat) (ahead : List Text) : Reader :=
  match ahead with
  | [] =>
      reader.emit
        (indents.map (fun _ => markToken reader.row 0 .dedent) ++ [⟨.endOfFile, [], reader.row + 1, 1⟩])
  | line :: below =>
      match lineStart line ⟨reader.depth, reader.joined, indents⟩ with
      | .ignored => (reader.moveTo (reader.row + 1) reader.depth reader.joined).scan indents below
      | .misaligned column marks =>
          reader.emit
            (marks.map (markToken reader.row column) ++
              failureTokens .invalidIndentation reader.row column)
      | .scan column marks indents loneComment =>
          let marked := reader.emit (marks.map (markToken reader.row column))
          match hs : scanLine ⟨reader.row, column, line.drop column, below⟩ reader.depth with
          | (tokens, .failed cause row column) =>
              let depth := tokens.foldl (fun depth t => depthAfter t.kind depth) reader.depth
              (marked.emit (tokens ++ failureTokens cause row column)).moveTo row depth false
          | (tokens, .done row width rest depth joined) =>
              have : rest.length ≤ below.length := scanLine_below hs
              let newline : List Token :=
                if loneComment || (depth == 0 && !joined) then
                  [⟨.newline, "\n", row + 1, width + 1⟩]
                else []
              ((marked.emit (tokens ++ newline)).moveTo (row + 1) depth joined).scan indents rest
termination_by ahead.length

def restart (reader : Reader) : Reader :=
  ({ reader with finished := true, found := [] }).moveTo 0 0 false

-- The reader after all of its source, which it reads once.
def build (reader : Reader) : Reader :=
  if reader.finished then reader else reader.restart.scan [] reader.lines

def tokens (reader : Reader) : List Token × Reader :=
  let built := reader.build
  (built.found, built)

def line (reader : Reader) (number : Int) : Text := lineAt reader.lines number

end Reader

-- What a reader can be asked to do, and what it answers.
inductive ReaderRequest
  | push (source name : Text)
  | tokens
  | line (number : Int)
  | name

inductive ReaderAnswer
  | done
  | tokens (tokens : List Token)
  | text (text : Text)
  deriving DecidableEq

def Reader.answer (reader : Reader) : ReaderRequest → ReaderAnswer × Reader
  | .push source name => (.done, reader.push source name)
  | .tokens => let (tokens, next) := reader.tokens; (.tokens tokens, next)
  | .line number => (.text (reader.line number), reader)
  | .name => (.text reader.name, reader)

-- The answers to a sequence of requests.
def Reader.run (reader : Reader) : List ReaderRequest → List ReaderAnswer
  | [] => []
  | request :: rest =>
      let (answer, next) := reader.answer request
      answer :: next.run rest

end TypeStub
