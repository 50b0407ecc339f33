import TypeStub.Number.Binary64
import TypeStub.Table

namespace TypeStub

-- What is recorded about the stubs that were loaded: when each running stage started, how long
-- each finished one took, and counters and gauges. Times are in microseconds, and all values are
-- 64-bit words that wrap.
structure Metrics where
  running : Table Nat
  durations : Table UInt64
  counters : Table UInt64
  gauges : Table UInt64

namespace Metrics

def empty : Metrics := ⟨[], [], [], []⟩

def start (m : Metrics) (stage : Text) (now : Nat) : Metrics :=
  { m with running := m.running.set stage now }

-- Adds the time since the start. A stage that does not run is left alone.
def stop (m : Metrics) (stage : Text) (now : Nat) : Metrics :=
  match m.running.get? stage with
  | none => m
  | some started =>
      let elapsed := (now - started).toUInt64
      { m with
        running := m.running.remove stage
        durations := m.durations.update stage fun before => before.getD 0 + elapsed }

def setDuration (m : Metrics) (stage : Text) (value : UInt64) : Metrics :=
  { m with durations := m.durations.set stage value }

def count (m : Metrics) (key : Text) (delta : UInt64) : Metrics :=
  { m with counters := m.counters.update key fun before => before.getD 0 + delta }

def setCounter (m : Metrics) (key : Text) (value : UInt64) : Metrics :=
  { m with counters := m.counters.set key value }

def setGauge (m : Metrics) (key : Text) (value : UInt64) : Metrics :=
  { m with gauges := m.gauges.set key value }

-- The stages that every stub goes through, in order.
def stages : List Text := ["Lex", "Parse", "Build", "Validate"]

-- The durations of the known stages in their order, then the others by name.
def orderedDurations (m : Metrics) : List (Text × UInt64) :=
  (stages.filterMap fun stage => (m.durations.get? stage).map fun time => (stage, time)) ++
    m.durations.filter fun entry => !stages.contains entry.1

def totalDuration (m : Metrics) : UInt64 := m.durations.foldl (fun total entry => total + entry.2) 0

-- Microseconds in milliseconds with three places, computed in double precision.
def millis (time : UInt64) : Text := ((Binary64.ofRatio time.toNat 1).divNat 1000).fixed 3

def largeInput : UInt64 := 100000

-- What is worth a word: a failed parse, and a large input.
def hints (m : Metrics) : List Text :=
  (if m.gauges.get? "parse.ok" = some 0 then [("parse_failed" : Text)] else []) ++
    (if (m.counters.get? "lex.tokens").any (largeInput < ·) then [("large_input" : Text)] else [])

def valueText (value : UInt64) : Text := Text.ofNat value.toNat

def summaryText (m : Metrics) : Text :=
  let durationLine (entry : Text × UInt64) : Text :=
    "  " ++ entry.1 ++ ": " ++ millis entry.2 ++ " ms\n"
  let valueLine (entry : Text × UInt64) : Text :=
    "  " ++ entry.1 ++ "=" ++ valueText entry.2 ++ "\n"
  let total : Text := if m.durations.isEmpty then [] else durationLine ("total", m.totalDuration)
  let hints : Text :=
    match m.hints with
    | [] => []
    | hints => "  hints: " ++ Text.joinWith " " hints ++ "\n"
  "== Metrics ==\n" ++ m.orderedDurations.flatMap durationLine ++ total ++
    m.counters.flatMap valueLine ++ m.gauges.flatMap valueLine ++ hints

-- One entry of an object in the JSON summary. Keys are written as they are.
def jsonEntry (key value : Text) : Text := "\n    \"" ++ key ++ "\": " ++ value

-- An object under a title, which follows other members; nothing for an empty one.
def jsonObject (title : Text) (values : Table UInt64) : Text :=
  if values.isEmpty then []
  else
    ",\n  \"" ++ title ++ "\": \x7b" ++
      Text.joinWith "," (values.map fun entry => jsonEntry entry.1 (valueText entry.2)) ++ "\n  \x7d"

def jsonDurations (m : Metrics) : List Text :=
  let total := if m.durations.isEmpty then [] else [jsonEntry "total" (millis m.totalDuration)]
  (m.orderedDurations.map fun entry => jsonEntry (entry.1.map Char.toLower) (millis entry.2)) ++
    total

-- Stage names are in lower case here.
def summaryJson (m : Metrics) : Text :=
  let quoted (hint : Text) : Text := "\"" ++ hint ++ "\""
  let hints : Text :=
    match m.hints with
    | [] => []
    | hints => ",\n  \"hints\": [" ++ Text.joinWith ", " (hints.map quoted) ++ "]"
  "\x7b\n  \"durations_ms\": \x7b" ++ Text.joinWith "," m.jsonDurations ++ "\n  \x7d" ++
    jsonObject "counters" m.counters ++ jsonObject "gauges" m.gauges ++ hints ++ "\n\x7d\n"

end Metrics

end TypeStub
