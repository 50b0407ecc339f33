import TypeStub.Fault
import TypeStub.Module

-- No two declarations of a scope share a name.
namespace TypeStub.Unique

-- The names that occur more than once, sorted. A repeated empty name is not reported.
def repeated (names : List Text) : List Text :=
  sortedNames (names.filter fun name => name != [] && 1 < names.count name)

def topLevelNames (module : StubModule) : List Text :=
  module.constants.map (·.name) ++ module.functions.map (·.name) ++ module.classes.map (·.name) ++
    module.aliases.map (·.name) ++ module.typeVariables.map (·.name)

def memberNames (stubClass : StubClass) : List Text :=
  stubClass.constants.map (·.name) ++ stubClass.methods.map (·.name)

def classFault? (lines : List (Text × Int32)) (stubClass : StubClass) : Option Fault :=
  match repeated (memberNames stubClass) with
  | [] => none
  | names =>
      some ⟨.duplicateMembers names, (lines.lookup stubClass.name).map Int32.toInt⟩

-- The first fault: at the top level, or in the first class that has one. A class statement gives
-- its line; a record class has none.
def fault? (lines : List (Text × Int32)) (module : StubModule) : Option Fault :=
  match repeated (topLevelNames module) with
  | [] => module.classes.findSome? (classFault? lines)
  | names => some ⟨.duplicateTopLevel names, none⟩

end TypeStub.Unique
