import TypeStub.Text

namespace TypeStub

-- Values under names, sorted by name without repeats.
abbrev Table (α : Type) := List (Text × α)

namespace Table

-- Sets the value under a name from the one that is there.
def update {α : Type} (name : Text) (f : Option α → α) : Table α → Table α
  | [] => [(name, f none)]
  | (key, value) :: rest =>
      if name < key then (name, f none) :: (key, value) :: rest
      else if name = key then (key, f (some value)) :: rest
      else (key, value) :: update name f rest

def set {α : Type} (name : Text) (value : α) (table : Table α) : Table α :=
  table.update name fun _ => value

def remove {α : Type} (name : Text) (table : Table α) : Table α :=
  table.filter fun entry => entry.1 != name

def get? {α : Type} (name : Text) (table : Table α) : Option α := table.lookup name

end Table

end TypeStub
