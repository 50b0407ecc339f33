import TypeStub.Names
import TypeStub.Print.Type
import TypeStub.Proofs.Grammar.TypeReads
import TypeStub.Proofs.Ty.NoneLast

namespace TypeStub.Print

open TypeStub.Grammar

-- The text before the brackets of a parametrized type.
def baseText (base : Ty) : Text := (baseType base (type [] base)).text

-- What stands between the brackets of a generic type, by its items.
def genericItems {α : Type} (base : Ty) (ellipsis : α) (params : List α) : List α :=
  match params with
  | [single] => if base.isNamed "tuple" then [single, ellipsis] else [single]
  | _ => params

def unionText (hasNone : Bool) (others : List Text) : Text :=
  if hasNone then
    match others with
    | [single] => "Optional" ++ bracketed [single]
    | _ => "Optional" ++ bracketed ["Union" ++ bracketed others]
  else "Union" ++ bracketed others

def unionExpr (hasNone : Bool) (others : List Expr) : Expr :=
  if hasNone then
    match others with
    | [single] => .subscript (.name "Optional") [single]
    | _ => .subscript (.name "Optional") [.subscript (.name "Union") others]
  else .subscript (.name "Union") others

theorem unionExpr_subscript (hasNone : Bool) (others : List Expr) :
    ∃ word elements, unionExpr hasNone others = .subscript (.name word) elements := by
  unfold unionExpr
  split
  · split <;> exact ⟨_, _, rfl⟩
  · exact ⟨_, _, rfl⟩

mutual

-- The expression that is read from the text of a type.
def expr : Ty → Expr
  | .generic base params =>
      .subscript (.name (baseText base)) (genericItems base .ellipsis (exprs params))
  | .tuple base params => .subscript (.name (baseText base)) (exprs params)
  | .callable base args result =>
      .subscript (.name (baseText base)) [.list (exprs args), expr result]
  | .union members => unionExpr (members.any Ty.isNone) (memberExprs members)
  | t => .name (typeText t)

def exprs : List Ty → List Expr
  | [] => []
  | t :: rest => expr t :: exprs rest

def memberExprs : List Ty → List Expr
  | [] => []
  | t :: rest => if t.isNone then memberExprs rest else expr t :: memberExprs rest

end

theorem exprs_eq (ts : List Ty) : exprs ts = ts.map expr := by
  induction ts with
  | nil => rfl
  | cons t rest ih => rw [exprs, ih, List.map_cons]

theorem memberExprs_eq (ts : List Ty) : memberExprs ts = (ts.filter (!·.isNone)).map expr := by
  induction ts with
  | nil => rfl
  | cons t rest ih => cases h : t.isNone <;> simp [memberExprs, h, ih]

theorem nameType_text (home name : Text) : (nameType home name).text = (nameType [] name).text := by
  unfold nameType
  split
  · rfl
  split
  · rfl
  split
  · split <;> split <;> rfl
  · rfl

theorem baseType_text (base : Ty) (plain other : Piece) (h : plain.text = other.text) :
    (baseType base plain).text = (baseType base other).text := by
  cases base with
  | named name => cases hc : capitalized? name <;> simp [baseType, hc, h]
  | _ => exact h

theorem joinWith_text (separator : Text) (pieces : List Piece) :
    (Piece.joinWith separator pieces).text = Text.joinWith separator (pieces.map (·.text)) := rfl

theorem genericParams_text (base : Ty) (params : List Piece) :
    (genericParams base params).text =
      Text.joinWith ", " (genericItems base "..." (params.map (·.text))) := by
  match params with
  | [] => rfl
  | [single] =>
      simp only [genericParams, genericItems, List.map_cons, List.map_nil]
      split
      · have hcomma : (", ..." : Text) = ", " ++ "..." := by decide
        rw [Text.joinWith_cons, Text.joinWith_singleton, List.append_assoc, ← hcomma]
        rfl
      · rw [Text.joinWith_singleton]
  | first :: second :: rest => rfl

theorem unionType_text (hasNone : Bool) (others : List Piece) :
    (unionType hasNone others).text = unionText hasNone (others.map (·.text)) := by
  have hone : ∀ text : Text, bracketed [text] = "[" ++ text ++ "]" := fun text => by
    rw [bracketed, Text.joinWith_singleton]
  cases hasNone with
  | false => exact List.append_assoc ..
  | true =>
      match others with
      | [] => rfl
      | [single] =>
          show "Optional" ++ "[" ++ single.text ++ "]" = "Optional" ++ bracketed [single.text]
          rw [hone]
          simp only [List.append_assoc]
      | first :: second :: rest =>
          have hclose : ("]]" : Text) = "]" ++ "]" := by decide
          show "Optional" ++ "[" ++ ("Union" ++ "[" ++ _ ++ "]]") =
            "Optional" ++ bracketed ["Union" ++ bracketed _]
          rw [hone, hclose]
          simp only [bracketed, List.append_assoc]
          rfl

section

variable (home : Text) (base result : Ty) (params : List Ty)

theorem generic_text : (type home (.generic base params)).text =
    (baseType base (type home base)).text ++
      bracketed (genericItems base "..." ((types home params).map (·.text))) := by
  rw [bracketed, ← genericParams_text, ← List.append_assoc, ← List.append_assoc]
  rfl

theorem tuple_text : (type home (.tuple base params)).text =
    (baseType base (type home base)).text ++ bracketed ((types home params).map (·.text)) := by
  rw [bracketed, ← joinWith_text, ← List.append_assoc, ← List.append_assoc]
  rfl

theorem callable_text : (type home (.callable base params result)).text =
    (baseType base (type home base)).text ++
      bracketed [bracketed ((types home params).map (·.text)), (type home result).text] := by
  have hopen : ("[[" : Text) = "[" ++ "[" := by decide
  have hbetween : ("], " : Text) = "]" ++ ", " := by decide
  show (baseType base (type home base)).text ++ "[[" ++ _ ++ "], " ++ _ ++ "]" = _
  rw [bracketed, bracketed, Text.joinWith_cons, Text.joinWith_singleton, hopen, hbetween]
  simp only [List.append_assoc]
  rfl

theorem union_text : (type home (.union params)).text =
    unionText (params.any Ty.isNone) ((unionMembers home params).map (·.text)) :=
  unionType_text ..

end

mutual

-- The text of a type does not depend on the module that it stands in.
theorem type_text (home : Text) : ∀ t : Ty, (type home t).text = typeText t
  | .named name => nameType_text home name
  | .anything | .nothing | .parameter _ => rfl
  | .generic base params => by
      rw [typeText, generic_text, generic_text, types_text home, types_text []]
      exact congrArg (· ++ _) (baseType_text base _ _ (type_text home base))
  | .tuple base params => by
      rw [typeText, tuple_text, tuple_text, types_text home, types_text []]
      exact congrArg (· ++ _) (baseType_text base _ _ (type_text home base))
  | .callable base args result => by
      rw [typeText, callable_text, callable_text, types_text home, types_text [],
        type_text home result]
      exact congrArg (· ++ _) (baseType_text base _ _ (type_text home base))
  | .union members => by
      rw [typeText, union_text, union_text, unionMembers_text home, unionMembers_text []]

theorem types_text (home : Text) : ∀ ts : List Ty,
    (types home ts).map (·.text) = ts.map typeText
  | [] => rfl
  | t :: rest => by
      rw [types, List.map_cons, type_text home t, types_text home rest, List.map_cons]

theorem unionMembers_text (home : Text) : ∀ ts : List Ty,
    (unionMembers home ts).map (·.text) = (ts.filter (!·.isNone)).map typeText
  | [] => rfl
  | t :: rest => by
      have hn : t.isNamed "NoneType" = t.isNone := rfl
      rw [unionMembers, List.filter_cons, hn]
      cases t.isNone with
      | true => exact unionMembers_text home rest
      | false => exact congrArg₂ (· :: ·) (type_text home t) (unionMembers_text home rest)

end

end TypeStub.Print

namespace TypeStub

open Print

-- A text that stands for a type under such names.
def Names.Reads (names : Names) (text : Text) (t : Ty) : Prop :=
  DottedName text ∧ names.resolve text = t

-- The names that the text of a union uses for it.
def unionWords (members : List Ty) : List Text :=
  if members.any Ty.isNone then
    if (members.filter (!·.isNone)).length = 1 then ["Optional"] else ["Optional", "Union"]
  else ["Union"]

theorem union_mem_unionWords {members : List Ty} (h : members.any Ty.isNone = false) :
    ("Union" : Text) ∈ unionWords members := by
  unfold unionWords
  rw [if_neg (Bool.eq_false_iff.mp h)]
  exact List.mem_singleton_self _

theorem optional_mem_unionWords {members : List Ty} (h : members.any Ty.isNone = true) :
    ("Optional" : Text) ∈ unionWords members ∧
      ((members.filter (!·.isNone)).length ≠ 1 → ("Union" : Text) ∈ unionWords members) := by
  unfold unionWords
  rw [if_pos h]
  split
  · rename_i hone
    exact ⟨List.mem_singleton_self _, fun hne => absurd hone hne⟩
  · exact ⟨List.mem_cons_self, fun _ => List.mem_cons_of_mem _ (List.mem_singleton_self _)⟩

mutual

-- A type whose text stands for it under such names, but for the place of None. The arguments of a
-- callable type must not be the one type nothing, and the members of a union must stay different.
def Ty.ReadsBack (names : Names) : Ty → Prop
  | .generic base params | .tuple base params =>
      names.Reads (baseText base) base ∧ AllReadBack names params
  | .callable base args result =>
      names.Reads (baseText base) base ∧ args ≠ [.nothing] ∧ AllReadBack names args ∧
        result.ReadsBack names
  | .union members =>
      (∀ word ∈ unionWords members, names.resolve word = .named ("typing." ++ word)) ∧
        (noneLastAll members).Nodup ∧ AllReadBack names members
  | t => names.Reads (typeText t) t

def Ty.AllReadBack (names : Names) : List Ty → Prop
  | [] => True
  | t :: rest => t.ReadsBack names ∧ AllReadBack names rest

end

end TypeStub
