import TypeStub.Convert

-- Which names a type has to look up.
namespace TypeStub

namespace Expr

mutual

-- The names that are written in a type, those inside parameters and fields among them.
def typeNames : Expr → List Text
  | .name id => [id]
  | .or elements | .list elements => typeNamesAll elements
  | .subscript base elements => base.typeNames ++ typeNamesAll elements
  | .record _ fields => typeNamesFields fields
  | _ => []

def typeNamesAll : List Expr → List Text
  | [] => []
  | e :: rest => e.typeNames ++ typeNamesAll rest

def typeNamesFields : List (Text × Expr) → List Text
  | [] => []
  | (_, field) :: rest => field.typeNames ++ typeNamesFields rest

end

end Expr

namespace Convert

-- Names by which these words stand for the same.
def ResolveAlike (names other : Names) (words : List Text) : Prop :=
  ∀ word ∈ words, names.resolve word = other.resolve word

variable {names other : Names}

theorem ResolveAlike.append {words more : List Text} (h : ResolveAlike names other (words ++ more)) :
    ResolveAlike names other words ∧ ResolveAlike names other more :=
  List.forall_mem_append.mp h

mutual

-- A conversion looks up the names that are written in the type, and no others.
theorem type_congr : ∀ {e : Expr}, ResolveAlike names other e.typeNames →
    Convert.type names e = Convert.type other e
  | .name id, h => by
      rw [Convert.type, Convert.type, nameType, nameType, h id List.mem_cons_self]
  | .or operands, h => by rw [Convert.type, Convert.type, types_congr h]
  | .list [], _ => rfl
  | .list (e :: rest), h => by
      simp only [Convert.type, types_congr h]
  | .subscript base elements, h => by
      cases base with
      | name id =>
          have hbase : names.resolve id = other.resolve id := h.append.1 id List.mem_cons_self
          simp only [Convert.type, hbase, callable_congr h.append.2, types_congr h.append.2]
      | _ => rfl
  | .record name fields, h => by rw [Convert.type, Convert.type, recordFields_congr h]
  | .question, _ | .ellipsis, _ | .int _, _ | .float _, _ | .string _, _ | .bool _, _ | .tuple _, _
  | .slice _ _ _, _ | .compare _ _ _, _ => rfl

theorem types_congr : ∀ {elements : List Expr}, ResolveAlike names other (Expr.typeNamesAll elements) →
    types names elements = types other elements
  | [], _ => rfl
  | e :: rest, h => by rw [types, types, type_congr h.append.1, types_congr h.append.2]

theorem callable_congr {base : Ty} : ∀ {elements : List Expr},
    ResolveAlike names other (Expr.typeNamesAll elements) →
    callable names base elements = callable other base elements
  | [], _ => rfl
  | [.list elements], h => by rw [callable, callable, types_congr h.append.1]
  | [.list elements, result], h => by
      rw [callable, callable, types_congr h.append.1, type_congr h.append.2.append.1]
  | [.name _], h | [.question], h | [.ellipsis], h | [.or _], h | [.subscript _ _], h
  | [.record _ _], h | [.int _], h | [.float _], h | [.string _], h | [.bool _], h | [.tuple _], h
  | [.slice _ _ _], h | [.compare _ _ _], h => by
      simp only [callable, type_congr h.append.1]
  | [.name _, result], h | [.question, result], h | [.ellipsis, result], h | [.or _, result], h
  | [.subscript _ _, result], h | [.record _ _, result], h | [.int _, result], h
  | [.float _, result], h | [.string _, result], h | [.bool _, result], h | [.tuple _, result], h
  | [.slice _ _ _, result], h | [.compare _ _ _, result], h => by
      simp only [callable, type_congr h.append.1, type_congr h.append.2.append.1]
  | argument :: _ :: _ :: _, _ => by cases argument <;> rfl

theorem recordFields_congr : ∀ {fields : List (Text × Expr)},
    ResolveAlike names other (Expr.typeNamesFields fields) →
    recordFields names fields = recordFields other fields
  | [], _ => rfl
  | (_, field) :: rest, h => by
      rw [recordFields, recordFields, type_congr h.append.1, recordFields_congr h.append.2]

end

end Convert

end TypeStub
