import TypeStub.Text

namespace TypeStub

-- The run-time version and platform that a stub is read for.
structure Target where
  version : List Int
  platform : Text
  deriving DecidableEq, Repr

-- Stubs are read for this target unless another one is named.
def Target.standard : Target := ⟨[2, 7, 6], "linux"⟩

-- A version has at least three components.
def padVersion (version : List Int) : List Int :=
  version ++ List.replicate (3 - version.length) 0

-- A version against one whose components are all zero.
def compareToZero : List Int → Ordering
  | [] => .eq
  | component :: rest => (compare component 0).then (compareToZero rest)

-- Versions are compared component by component, the shorter one followed by zeros.
def compareVersions : List Int → List Int → Ordering
  | left, [] => compareToZero left
  | [], right => (compareToZero right).swap
  | l :: left, r :: right => (compare l r).then (compareVersions left right)

-- A bound of a slice moved into range. A negative bound counts from the end.
def clampBound (size step : Int) (bound : Int) : Int :=
  let top := if step < 0 then size - 1 else size
  let bottom := if step < 0 then -1 else 0
  if bound < 0 then
    if bound + size < 0 then bottom else bound + size
  else if size ≤ bound then top
  else bound

-- The 64-bit machine integer that stands for an integer.
def wrap (n : Int) : Int := n.bmod 18446744073709551616

-- An index is before the end of a slice, in the direction of the step.
def Precedes (step index last : Int) : Prop := if 0 < step then index < last else last < index

instance (step index last : Int) : Decidable (Precedes step index last) :=
  inferInstanceAs (Decidable (if 0 < step then index < last else last < index))

-- The indices that a slice visits from one on, at most so many of them: each is the machine sum of
-- the one before it and the step.
def visit (step last : Int) : Nat → Int → List Int
  | 0, _ => []
  | rest + 1, index =>
      if Precedes step index last then index :: visit step last rest (wrap (index + step)) else []

-- The index that a slice starts from.
def firstIndex (size : Nat) (start : Option Int) (step : Int) : Int :=
  match start with
  | some bound => clampBound size step bound
  | none => if 0 < step then 0 else size - 1

-- The index that a slice stops before.
def lastIndex (size : Nat) (stop : Option Int) (step : Int) : Int :=
  match stop with
  | some bound => clampBound size step bound
  | none => if 0 < step then size else -1

-- The indices that a slice with a step other than zero visits, in order. They are never more than
-- one more than the components.
def sliceIndices (size : Nat) (start stop : Option Int) (step : Int) : List Int :=
  visit step (lastIndex size stop step) (size + 1) (firstIndex size start step)

-- The component at a machine index. A component takes eight bytes, so its address depends on the
-- low 61 bits of the index. Nothing defines what a read outside the elements gives: it is an element
-- where the address happens to be that of one, and otherwise it is left out.
def componentAt? {α : Type} (elements : List α) (index : Int) : Option α :=
  elements[(index % 2305843009213693952).toNat]?

-- The elements that a slice visits, in order; none is the answer to a step of zero. Only a slice that
-- visits no index outside the elements has a defined answer.
def slice? {α : Type} (elements : List α) (start stop step : Option Int) : Option (List α) :=
  let stride := step.getD 1
  if stride = 0 then none
  else some ((sliceIndices elements.length start stop stride).filterMap (componentAt? elements))

end TypeStub
