import TypeStub.Text

namespace TypeStub

-- A name that a printed text relies on: one of the typing module, or a module.
inductive Use
  | typing (name : Text)
  | module (name : Text)
  deriving DecidableEq, Repr

-- A printed text and the names that it relies on.
structure Piece where
  text : Text
  uses : List Use
  deriving Repr

namespace Piece

instance : Coe Text Piece := ⟨fun text => ⟨text, []⟩⟩

instance : Coe String Piece := ⟨fun text => ⟨text, []⟩⟩

instance : Append Piece := ⟨fun a b => ⟨a.text ++ b.text, a.uses ++ b.uses⟩⟩

-- The text alone, relying on nothing.
def silent (piece : Piece) : Piece := ⟨piece.text, []⟩

-- The same text, relying on more.
def relyingOn (piece : Piece) (uses : List Use) : Piece := ⟨piece.text, uses ++ piece.uses⟩

def joinWith (separator : Text) (pieces : List Piece) : Piece :=
  ⟨Text.joinWith separator (pieces.map (·.text)), pieces.flatMap (·.uses)⟩

def ofTyping (name : Text) : Piece := ⟨name, [.typing name]⟩

end Piece

end TypeStub
