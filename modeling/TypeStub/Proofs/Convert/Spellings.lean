import TypeStub.Convert
import TypeStub.Proofs.Names.Resolve
import TypeStub.Proofs.Ty.Union

-- Types that can be written in several ways.
namespace TypeStub

-- A word of the typing module, alone and with the name of the module.
def typingSpellings (word : Text) : List Text := [word, "typing." ++ word]

-- The words of the typing module for unions and tuples.
def formWords : List Text := ["Union", "Optional", "Tuple"]

-- Names under which these words have their own meaning: a stub may bind them by imports, but it
-- declares neither a class nor a type variable in their place.
structure Names.KeepsForms (names : Names) : Prop where
  useBuiltins : names.useBuiltins = true
  undeclared : ∀ word ∈ formWords, ∀ spelling ∈ typingSpellings word,
    names.isTypeVar spelling = false ∧ names.isClass spelling = false

theorem Names.KeepsForms.resolve {names : Names} (h : names.KeepsForms) (word : Text)
    {spelling : Text} {builtin : Builtin} (hb : Builtin.ofName? word = some builtin)
    (hw : word ∈ formWords) (hs : spelling ∈ typingSpellings word) :
    names.resolve spelling = builtin.type := by
  have hfixed : ∀ word ∈ formWords, ∀ spelling ∈ typingSpellings word,
      spelling ∉ fixedNames := by decide
  have hmeaning : ∀ word ∈ formWords, ∀ spelling ∈ typingSpellings word,
      (Builtin.ofName? spelling).or (Builtin.ofTyping? spelling) = Builtin.ofName? word := by
    decide
  obtain ⟨hvar, hclass⟩ := h.undeclared word hw spelling hs
  rw [Names.resolve_undeclared (hfixed word hw spelling hs) hvar hclass]
  refine Names.elsewhere_of_builtin ?_
  rw [Names.builtin?, if_pos h.useBuiltins, hmeaning word hw spelling hs, hb]

-- Two expressions that convert alike in every state of the records and of the first failure: to the
-- same type or with the same failure, and into the same state.
def Conversions.Alike (names : Names) (e other : Expr) : Prop :=
  ∀ (state : Conversions.State) (line : Int),
    Conversions.step names state e line = Conversions.step names state other line

namespace Convert

-- A name with parameters, in each spelling of a word.
def subscripts (word : Text) : List (List Expr → Expr) :=
  (typingSpellings word).map fun spelling => .subscript (.name spelling)

-- The ways to write a union.
def unionForms : List (List Expr → Expr) := .or :: subscripts "Union"

variable {names : Names}

theorem alike_of_eq {e other : Expr} (h : Convert.type names e = Convert.type names other) :
    Conversions.Alike names e other := by
  intro state line
  rw [Conversions.step, Conversions.step, h]

theorem types_append (before after : List Expr) :
    types names (before ++ after) = do
      let first ← types names before
      let second ← types names after
      return first ++ second := by
  induction before with
  | nil => simp [types]
  | cons e rest ih => simp [types, ih]

theorem types_singleton (e : Expr) : types names [e] = do return [← Convert.type names e] := by
  simp [types]

theorem type_none : Convert.type names (.name "None") = pure (.named "NoneType") := rfl

-- All ways to write a union make the union of its converted members.
theorem type_union (h : names.KeepsForms) {form : List Expr → Expr} (hf : form ∈ unionForms)
    (es : List Expr) : Convert.type names (form es) = do return .unionOf (← types names es) := by
  rcases List.mem_cons.mp hf with rfl | hf
  · rw [Convert.type]
  · obtain ⟨spelling, hs, rfl⟩ := List.mem_map.mp hf
    have hr : names.resolve spelling = .named "typing.Union" :=
      h.resolve "Union" rfl (by decide) hs
    rw [Convert.type]
    simp only [hr]
    rfl

theorem type_optional (h : names.KeepsForms) {form : List Expr → Expr}
    (hf : form ∈ subscripts "Optional") (es : List Expr) :
    Convert.type names (form es) = do
      return .unionOf ((← types names es) ++ [.named "NoneType"]) := by
  obtain ⟨spelling, hs, rfl⟩ := List.mem_map.mp hf
  have hr : names.resolve spelling = .named "typing.Optional" :=
    h.resolve "Optional" rfl (by decide) hs
  rw [Convert.type]
  simp only [hr]
  rfl

-- A union among the members of another one may give way to its own members: the records and the
-- first failure come in the same order.
theorem type_nested (h : names.KeepsForms) {outer inner : List Expr → Expr}
    (ho : outer ∈ unionForms) (hi : inner ∈ unionForms) (before es after : List Expr) :
    Convert.type names (outer (before ++ [inner es] ++ after)) =
      Convert.type names (outer (before ++ es ++ after)) := by
  simp only [type_union h ho, types_append, types_singleton, type_union h hi, bind_assoc, pure_bind,
    Ty.unionOf_grouped]

theorem type_tuple (h : names.KeepsForms) {form : List Expr → Expr} (hf : form ∈ subscripts "Tuple")
    {es : List Expr} (he : es ≠ []) : Convert.type names (.list es) = Convert.type names (form es) := by
  obtain ⟨spelling, hs, rfl⟩ := List.mem_map.mp hf
  have hr : names.resolve spelling = .named "tuple" :=
    h.resolve "Tuple" rfl (by decide) hs
  cases es with
  | nil => exact absurd rfl he
  | cons first rest =>
      rw [Convert.type, Convert.type]
      · simp only [hr]
        rfl
      · exact he

-- One parameter is repeated anyway, unless it is that of a tuple.
theorem type_repeated {base : Text} {e : Expr} (ht : names.resolve base ≠ .named "tuple")
    (hc : names.resolve base ≠ .named "typing.Callable")
    (hu : names.resolve base ≠ .named "typing.Union")
    (ho : names.resolve base ≠ .named "typing.Optional") (he : e ≠ .ellipsis) :
    Convert.type names (.subscript (.name base) [e, .ellipsis]) =
      Convert.type names (.subscript (.name base) [e]) := by
  have hplain : isEllipsis e = false := by
    cases e with
    | ellipsis => exact absurd rfl he
    | _ => rfl
  have hellipses : ∀ es, es = [e, .ellipsis] ∨ es = [e] → checkEllipses es = pure () := by
    rintro es (rfl | rfl) <;> simp [checkEllipses, hplain]
  have hboth : ∀ type : Ty, parametrized (names.resolve base) [e, .ellipsis] [type, .anything] =
      parametrized (names.resolve base) [e] [type] := by
    intro type
    have hn : (names.resolve base).isNamed "tuple" = false := by
      rwa [Bool.eq_false_iff, ne_eq, Ty.isNamed_iff]
    rw [parametrized, parametrized, hn]
    simp [isEllipsis]
  rw [Convert.type, Convert.type]
  simp only [Ty.isNamed_iff, hc, hu, ho, if_false, hellipses _ (.inl rfl), hellipses _ (.inr rfl)]
  simp only [types, Convert.type, pure_bind, bind_assoc, hboth]

-- Synonymous spellings convert alike: the ways to write a union, an optional type and the union with
-- None, a union within a union and its members in its place, a list and a tuple, and a repeated
-- parameter with and without the ellipsis.
theorem alike_spellings (h : names.KeepsForms) :
    (∀ form ∈ unionForms, ∀ other ∈ unionForms, ∀ es,
      Conversions.Alike names (form es) (other es)) ∧
    (∀ optional ∈ subscripts "Optional", ∀ union ∈ unionForms, ∀ es,
      Conversions.Alike names (optional es) (union (es ++ [.name "None"]))) ∧
    (∀ outer ∈ unionForms, ∀ inner ∈ unionForms, ∀ before es after,
      Conversions.Alike names (outer (before ++ [inner es] ++ after))
        (outer (before ++ es ++ after))) ∧
    (∀ tuple ∈ subscripts "Tuple", ∀ es, es ≠ [] →
      Conversions.Alike names (.list es) (tuple es)) ∧
    ∀ base e, names.resolve base ≠ .named "tuple" → names.resolve base ≠ .named "typing.Callable" →
      names.resolve base ≠ .named "typing.Union" → names.resolve base ≠ .named "typing.Optional" →
      e ≠ .ellipsis →
      Conversions.Alike names (.subscript (.name base) [e, .ellipsis])
        (.subscript (.name base) [e]) := by
  refine ⟨fun form hf other ho es => ?_, fun optional ho union hu es => ?_,
    fun outer ho inner hi before es after => alike_of_eq (type_nested h ho hi before es after),
    fun tuple ht es he => alike_of_eq (type_tuple h ht he),
    fun base e ht hc hu ho he => alike_of_eq (type_repeated ht hc hu ho he)⟩
  · exact alike_of_eq ((type_union h hf es).trans (type_union h ho es).symm)
  · refine alike_of_eq ?_
    simp only [type_optional h ho, type_union h hu, types_append, types_singleton, type_none,
      bind_assoc, pure_bind]

-- A record leaves the same class in every spelling, also where an import binds the word.
theorem alike_spellings_record :
    let names : Names := ⟨true, ["A"], ["T"], [("Union", "a.Union")]⟩
    let record := Expr.record "R" [("f", .name "A")]
    names.KeepsForms ∧
      (Conversions.step names Conversions.start (.or [record, .name "T"]) 1).1 =
        .ok (.union [.named "\x60R\x60", .parameter "T"]) ∧
      Conversions.Alike names (.or [record, .name "T"])
        (.subscript (.name "typing.Union") [record, .name "T"]) ∧
      Conversions.Alike names (.subscript (.name "Optional") [record]) (.or [record, .name "None"]) ∧
      Conversions.Alike names (.or [.name "T", .subscript (.name "Union") [record, .name "A"]])
        (.or [.name "T", record, .name "A"]) ∧
      Conversions.Alike names (.list [record, .ellipsis])
        (.subscript (.name "typing.Tuple") [record, .ellipsis]) ∧
      Conversions.Alike names (.subscript (.name "A") [record, .ellipsis])
        (.subscript (.name "A") [record]) := by
  intro names record
  have hkeeps : names.KeepsForms := ⟨rfl, by decide⟩
  have hbase : names.resolve "A" = .named "A" := rfl
  have hother : ∀ {word : Text}, "A" ≠ word → names.resolve "A" ≠ .named word := by
    intro word hne h
    exact hne (Ty.named.inj (hbase.symm.trans h))
  obtain ⟨hunion, hoptional, hnested, htuple, hrepeated⟩ := alike_spellings hkeeps
  refine ⟨hkeeps, rfl, hunion _ ?_ _ ?_ _, hoptional _ ?_ _ ?_ [record],
    hnested .or ?_ _ ?_ [.name "T"] [record, .name "A"] [], htuple _ ?_ _ (by simp),
    hrepeated "A" record (hother (by decide)) (hother (by decide)) (hother (by decide))
      (hother (by decide)) (by simp [record])⟩
  all_goals simp [unionForms, subscripts, typingSpellings]

end Convert

end TypeStub
