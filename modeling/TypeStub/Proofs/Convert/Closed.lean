import TypeStub.Convert
import TypeStub.Proofs.Ensures
import TypeStub.Proofs.Grammar.Parsed
import TypeStub.Proofs.Module.Types

namespace TypeStub.Convert

-- A base that takes its parameters as they are.
def IsPlainBase (names : Names) (base : Ty) : Prop :=
  base = tupleBase ∨ ∃ id, base = names.resolve id ∧ base.isNamed "typing.Callable" = false ∧
    base.isNamed "typing.Union" = false ∧ base.isNamed "typing.Optional" = false

-- What a property of types has to allow for to hold of every converted type.
structure Closed (names : Names) (P : Ty → Prop) : Prop where
  anything : P .anything
  bare : ∀ id, (names.resolve id).isNamed "typing.Union" = false →
    (names.resolve id).isNamed "typing.Optional" = false → P (names.resolve id)
  none : P (.named "NoneType")
  union : ∀ types, (∀ type ∈ types, P type) → P (.unionOf types)
  noFields : P (.generic tupleBase [.nothing])
  tuple : ∀ types, types ≠ [] → (∀ type ∈ types, P type) → P (.tuple tupleBase types)
  parametrized : ∀ base elements params, IsPlainBase names base → elements ≠ [] →
    params.length = elements.length → (∀ type ∈ params, P type) →
    P (Convert.parametrized base elements params)
  openCallable : ∀ base result, base.isNamed "typing.Callable" = true → P result →
    P (.generic base [.anything, result])
  callable : ∀ base args result, base.isNamed "typing.Callable" = true →
    (∀ type ∈ args, P type) → P result → P (.callable base args result)
  record : ∀ (records : Records) name, P (.named (records.className name))

-- The class of a record: a tuple of its fields under a quoted name.
structure IsRecord (c : StubClass) : Prop where
  name : ∃ inner, c.name = '\x60' :: inner ++ ['\x60']
  parents : c.parents = [recordParent (c.constants.map (·.type))]
  metaclass : c.metaclass = none
  methods : c.methods = []

-- The classes made so far are those of records, and they have only such types.
def Holds (P : Ty → Prop) (records : Records) : Prop :=
  ∀ c ∈ records.classes, IsRecord c ∧ ∀ type ∈ c.types, P type

theorem className_quoted (records : Records) (name : Text) :
    ∃ inner, records.className name = '\x60' :: inner ++ ['\x60'] := by
  unfold Records.className
  split
  · exact ⟨name, rfl⟩
  · exact ⟨_, by rw [List.cons_append, List.cons_append]⟩

section

variable {names : Names} {P : Ty → Prop}

theorem ensures_checkEllipses (elements : List Expr) :
    Ensures (Holds P) (checkEllipses elements) fun _ => True := by
  refine .ite (fun _ => .throw_bind) fun _ => .ite (fun _ => .throw) fun _ => .pure trivial

theorem ensures_nameType (hc : Closed names P) (id : Text) :
    Ensures (Holds P) (nameType names id) P := by
  refine .ite (fun _ => .throw) fun hu => .ite (fun _ => .throw) fun ho => .pure ?_
  exact hc.bare id (by simpa using hu) (by simpa using ho)

theorem ensures_openCallable (hc : Closed names P) {base argument result : Ty}
    (hb : base.isNamed "typing.Callable" = true) (hr : P result) :
    Ensures (Holds P) (openCallable base argument result) P := by
  refine .ite (fun hk => .pure ?_) fun _ => .throw
  obtain rfl : argument = .anything := by cases argument <;> simp_all [Ty.kind]
  exact hc.openCallable base result hb hr

theorem ensures_openRecord (name : Text) :
    Ensures (Holds P) (openRecord name) fun className =>
      ∃ records : Records, className = records.className name := by
  intro records className records' hr h
  obtain ⟨rfl, rfl⟩ := (EStateM.Result.ok.injEq ..).mp h
  exact ⟨⟨records, rfl⟩, hr⟩

theorem ensures_addRecord (hc : Closed names P) {className : Text} {fields : List Constant}
    (hq : ∃ inner, className = '\x60' :: inner ++ ['\x60']) (hn : P (.named className))
    (hf : ∀ field ∈ fields, P field.type) :
    Ensures (Holds P) (addRecord className fields) P := by
  intro records type records' hr h
  obtain ⟨rfl, rfl⟩ := (EStateM.Result.ok.injEq ..).mp h
  refine ⟨hn, fun c hm => ?_⟩
  rcases List.mem_append.mp hm with hm | hm
  · exact hr c hm
  · simp only [List.mem_singleton] at hm
    subst hm
    refine ⟨⟨hq, rfl, rfl, rfl⟩, fun t ht => ?_⟩
    simp only [StubClass.types, List.mem_append, List.mem_singleton, Option.toList_none,
      List.not_mem_nil, List.flatMap_nil, or_false, List.mem_map] at ht
    rcases ht with rfl | ⟨field, hin, rfl⟩
    · cases fields with
      | nil => exact hc.noFields
      | cons field rest =>
          refine hc.tuple _ (by simp) fun t ht => ?_
          obtain ⟨f, hf', rfl⟩ := List.mem_map.mp ht
          exact hf f hf'
    · exact hf field hin

mutual

-- The cases are those of the conversion; a list is longer than none because the grammar says so.
theorem ensures_type (hc : Closed names P) : ∀ e : Expr, e.IsType →
    Ensures (Holds P) (Convert.type names e) P
  | .name id, _ => ensures_nameType hc id
  | .question, _ => .pure hc.anything
  | .ellipsis, _ => .pure hc.anything
  | .or operands, h =>
      .bind (ensures_types hc operands h.2) fun types ht => .pure (hc.union types ht.2)
  | .list [], _ => .pure hc.noFields
  | .list (element :: rest), h => by
      refine .bind (ensures_checkEllipses _) fun _ _ => ?_
      refine .bind (ensures_types hc (element :: rest) h) fun types ht => .pure ?_
      exact hc.parametrized _ _ _ (.inl rfl) (by simp) ht.1 ht.2
  | .subscript (.name id) elements, h => by
      refine .ite (fun hcall => ensures_callable hc hcall elements h.2.2) fun hcall => ?_
      refine .ite (fun _ => ?_) fun hu => .ite (fun _ => ?_) fun ho => ?_
      · exact .bind (ensures_types hc elements h.2.2) fun types ht => .pure (hc.union types ht.2)
      · refine .bind (ensures_types hc elements h.2.2) fun types ht => .pure (hc.union _ ?_)
        intro type hm
        rcases List.mem_append.mp hm with hm | hm
        · exact ht.2 type hm
        · exact List.mem_singleton.mp hm ▸ hc.none
      · refine .bind (ensures_checkEllipses _) fun _ _ => ?_
        refine .bind (ensures_types hc elements h.2.2) fun types ht => .pure ?_
        refine hc.parametrized _ _ _ (.inr ⟨id, rfl, ?_, ?_, ?_⟩) h.2.1 ht.1 ht.2
        · simpa using hcall
        · simpa using hu
        · simpa using ho
  | .record name fields, h => by
      refine .bind (ensures_openRecord name) fun className ⟨records, hn⟩ => ?_
      refine .bind (ensures_recordFields hc fields h) fun constants hf => ?_
      subst hn
      exact ensures_addRecord hc (className_quoted records name) (hc.record records name) hf

theorem ensures_types (hc : Closed names P) : ∀ elements : List Expr, Expr.AreTypes elements →
    Ensures (Holds P) (Convert.types names elements) fun types =>
      types.length = elements.length ∧ ∀ type ∈ types, P type
  | [], _ => .pure ⟨rfl, by simp⟩
  | element :: rest, h => by
      refine .bind (ensures_type hc element h.1) fun first hf => ?_
      refine .bind (ensures_types hc rest h.2) fun more hm => .pure ?_
      exact ⟨by simp [hm.1], by simpa [hf] using hm.2⟩

theorem ensures_callable (hc : Closed names P) {base : Ty}
    (hb : base.isNamed "typing.Callable" = true) : ∀ elements : List Expr,
    Expr.AreTypes elements → Ensures (Holds P) (Convert.callable names base elements) P
  | [], _ => .pure (hc.callable base [] .anything hb (by simp) hc.anything)
  | [.list elements], h => by
      refine .ite (fun _ => .pure (hc.callable base [] _ hb (by simp) hc.anything)) fun _ => ?_
      refine .bind (ensures_types hc elements h.1) fun args ha => .pure ?_
      exact hc.callable base args _ hb ha.2 hc.anything
  | [.list elements, result], h => by
      refine .bind (ensures_type hc result h.2.1) fun result hr => ?_
      refine .ite (fun _ => .pure (hc.callable base [] _ hb (by simp) hr)) fun _ => ?_
      refine .bind (ensures_types hc elements h.1) fun args ha => .pure ?_
      exact hc.callable base args _ hb ha.2 hr
  | [.name _], h | [.question], h | [.ellipsis], h | [.or _], h
  | [.subscript _ _], h | [.record _ _], h =>
      .bind (ensures_type hc _ h.1) fun _ _ => ensures_openCallable hc hb hc.anything
  | [.name _, result], h | [.question, result], h | [.ellipsis, result], h
  | [.or _, result], h | [.subscript _ _, result], h | [.record _ _, result], h =>
      .bind (ensures_type hc result h.2.1) fun _ hr =>
        .bind (ensures_type hc _ h.1) fun _ _ => ensures_openCallable hc hb hr
  | argument :: _ :: _ :: _, _ => by cases argument <;> exact .throw

theorem ensures_recordFields (hc : Closed names P) : ∀ fields : List (Text × Expr),
    Expr.AreFields fields → Ensures (Holds P) (Convert.recordFields names fields) fun constants =>
      ∀ constant ∈ constants, P constant.type
  | [], _ => .pure (by simp)
  | (name, field) :: rest, h => by
      refine .bind (ensures_type hc field h.1) fun first hf => ?_
      refine .bind (ensures_recordFields hc rest h.2) fun more hm => .pure ?_
      simpa [hf] using hm

end

end

end TypeStub.Convert
