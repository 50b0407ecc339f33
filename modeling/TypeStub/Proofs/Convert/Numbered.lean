import Mathlib.Data.List.Forall2
import TypeStub.Proofs.Convert.Titles
import TypeStub.Proofs.Ensures

-- The classes that a conversion adds, in the order in which it finishes their records, and the
-- numbers that records of one name get.
namespace TypeStub.Convert

-- A type to which an expression converts, whatever records were met before it.
def Converts (names : Names) (e : Expr) (type : Ty) : Prop :=
  ∃ before after, Convert.type names e before = .ok type after

-- A record as it is written, with the names that are known at its place.
structure WrittenRecord where
  names : Names
  name : Text
  fields : List (Text × Expr)

mutual

-- The records of a type in the order in which they are finished: each one after those in its
-- fields, and those in the result of a callable type before those in its arguments.
def finished (names : Names) : Expr → List WrittenRecord
  | .or elements | .list elements => finishedAll names elements
  | .subscript (.name id) elements =>
      if (names.resolve id).isNamed "typing.Callable" then finishedCallable names elements
      else finishedAll names elements
  | .record name fields => finishedFields names fields ++ [⟨names, name, fields⟩]
  | _ => []

def finishedAll (names : Names) : List Expr → List WrittenRecord
  | [] => []
  | e :: rest => finished names e ++ finishedAll names rest

def finishedCallable (names : Names) : List Expr → List WrittenRecord
  | [arguments] => finished names arguments
  | [arguments, result] => finished names result ++ finished names arguments
  | _ => []

def finishedFields (names : Names) : List (Text × Expr) → List WrittenRecord
  | [] => []
  | (_, type) :: rest => finished names type ++ finishedFields names rest

end

def IsField (names : Names) (field : Text × Expr) (constant : Constant) : Prop :=
  constant.name = field.1 ∧ Converts names field.2 constant.type

-- The class of a record: its name in quotes, with a number or without one, a tuple of its fields
-- for the parent, and a constant for each field.
structure MakesRecord (written : WrittenRecord) (c : StubClass) : Prop where
  name : ∃ number, c.name = quoted (numbered written.name number)
  fields : List.Forall₂ (IsField written.names) written.fields c.constants
  parents : c.parents = [recordParent (c.constants.map (·.type))]
  metaclass : c.metaclass = none
  methods : c.methods = []

-- The fields of a record become constants, each of the type that its expression converts to.
theorem recordFields_ok {names : Names} {fields : List (Text × Expr)} {before after : Records}
    {constants : List Constant} (h : recordFields names fields before = .ok constants after) :
    List.Forall₂ (IsField names) fields constants := by
  induction fields generalizing before after constants with
  | nil =>
      obtain ⟨rfl, -⟩ := (EStateM.Result.ok.injEq ..).mp h
      exact .nil
  | cons field rest ih =>
      obtain ⟨name, e⟩ := field
      rw [recordFields] at h
      obtain ⟨type, middle, htype, hrest⟩ := run_bind_ok h
      obtain ⟨others, last, hothers, hlast⟩ := run_bind_ok hrest
      obtain ⟨rfl, rfl⟩ := (EStateM.Result.ok.injEq ..).mp hlast
      exact .cons ⟨rfl, before, middle, htype⟩ (ih hothers)

mutual

-- The records of a type, each one before those in its fields. Of a callable type the ones in the
-- result come first, or else the ones in the arguments.
def recordsOf (resultFirst : Bool) (names : Names) : Expr → List WrittenRecord
  | .or elements | .list elements => recordsOfAll resultFirst names elements
  | .subscript (.name id) elements =>
      if (names.resolve id).isNamed "typing.Callable" then
        recordsOfCallable resultFirst names elements
      else recordsOfAll resultFirst names elements
  | .record name fields => ⟨names, name, fields⟩ :: recordsOfFields resultFirst names fields
  | _ => []

def recordsOfAll (resultFirst : Bool) (names : Names) : List Expr → List WrittenRecord
  | [] => []
  | e :: rest => recordsOf resultFirst names e ++ recordsOfAll resultFirst names rest

def recordsOfCallable (resultFirst : Bool) (names : Names) : List Expr → List WrittenRecord
  | [arguments] => recordsOf resultFirst names arguments
  | [arguments, result] =>
      if resultFirst then recordsOf resultFirst names result ++ recordsOf resultFirst names arguments
      else recordsOf resultFirst names arguments ++ recordsOf resultFirst names result
  | _ => []

def recordsOfFields (resultFirst : Bool) (names : Names) :
    List (Text × Expr) → List WrittenRecord
  | [] => []
  | (_, type) :: rest => recordsOf resultFirst names type ++ recordsOfFields resultFirst names rest

end

-- The records in the order in which a conversion opens them.
def openedRecords (names : Names) (e : Expr) : List WrittenRecord := recordsOf true names e

-- The records in the order in which they start in the text.
def textRecords (names : Names) (e : Expr) : List WrittenRecord := recordsOf false names e

-- The names of records that were opened, the last first, when more records have followed.
def met (order : List WrittenRecord) (seen : List Text) : List Text :=
  (order.map (·.name)).reverse ++ seen

theorem met_append (order more : List WrittenRecord) (seen : List Text) :
    met (order ++ more) seen = met more (met order seen) := by
  simp [met]

-- Records in some order, each with the number of earlier ones of its name.
def withNumbers (seen : List Text) : List WrittenRecord → List (WrittenRecord × Nat)
  | [] => []
  | written :: rest => (written, seen.count written.name) :: withNumbers (written.name :: seen) rest

theorem withNumbers_append (seen : List Text) (order more : List WrittenRecord) :
    withNumbers seen (order ++ more) = withNumbers seen order ++ withNumbers (met order seen) more := by
  induction order generalizing seen with
  | nil => rfl
  | cons written rest ih =>
      have hmet : met rest (written.name :: seen) = met (written :: rest) seen := by simp [met]
      rw [List.cons_append, withNumbers, withNumbers, ih, hmet, List.cons_append]

mutual

-- The records of a type in the order in which they are finished, each with its number: how many of
-- its name were opened before it.
def numberedIn (names : Names) (seen : List Text) : Expr → List (WrittenRecord × Nat)
  | .or elements | .list elements => numberedAll names seen elements
  | .subscript (.name id) elements =>
      if (names.resolve id).isNamed "typing.Callable" then numberedCallable names seen elements
      else numberedAll names seen elements
  | .record name fields =>
      numberedFields names (name :: seen) fields ++ [(⟨names, name, fields⟩, seen.count name)]
  | _ => []

def numberedAll (names : Names) (seen : List Text) : List Expr → List (WrittenRecord × Nat)
  | [] => []
  | e :: rest => numberedIn names seen e ++ numberedAll names (met (openedRecords names e) seen) rest

def numberedCallable (names : Names) (seen : List Text) : List Expr → List (WrittenRecord × Nat)
  | [arguments] => numberedIn names seen arguments
  | [arguments, result] =>
      numberedIn names seen result ++
        numberedIn names (met (openedRecords names result) seen) arguments
  | _ => []

def numberedFields (names : Names) (seen : List Text) :
    List (Text × Expr) → List (WrittenRecord × Nat)
  | [] => []
  | (_, type) :: rest =>
      numberedIn names seen type ++ numberedFields names (met (openedRecords names type) seen) rest

end

-- The class of a record has the name that its number gives.
structure MakesNumbered (written : WrittenRecord × Nat) (c : StubClass) : Prop where
  name : c.name = quoted (numbered written.1.name written.2)
  record : MakesRecord written.1 c

-- A conversion that opens these records, when it succeeds, and adds the classes of these numbered
-- ones behind the others.
def Numbers {α : Type} (p : Convert α) (order : List WrittenRecord)
    (made : List Text → List (WrittenRecord × Nat)) : Prop :=
  ∀ ⦃before : Records⦄ ⦃a : α⦄ ⦃after : Records⦄, p before = .ok a after →
    after.opened = met order before.opened ∧
      ∃ added, after.classes = before.classes ++ added ∧
        List.Forall₂ MakesNumbered (made before.opened) added

section

variable {α β : Type} {p : Convert α} {order more : List WrittenRecord}
  {made others : List Text → List (WrittenRecord × Nat)}

theorem Numbers.pure (a : α) : Numbers (Pure.pure a) [] fun _ => [] := by
  intro before a' after h
  obtain ⟨-, rfl⟩ := (EStateM.Result.ok.injEq ..).mp h
  exact ⟨rfl, [], by simp, .nil⟩

theorem Numbers.throw (e : TypeError) : Numbers (throw e : Convert α) order made := by
  intro before a after h
  exact absurd h (show EStateM.Result.error e before ≠ .ok a after by simp)

theorem Numbers.bind {f : α → Convert β} (hp : Numbers p order made)
    (hf : ∀ a, Numbers (f a) more others) :
    Numbers (p >>= f) (order ++ more) fun seen => made seen ++ others (met order seen) := by
  intro before b after h
  obtain ⟨a, middle, ha, hb⟩ := run_bind_ok h
  obtain ⟨hopened, first, hfirst, hmakes⟩ := hp ha
  obtain ⟨hlater, second, hsecond, hmore⟩ := hf a hb
  rw [hopened] at hlater hmore
  refine ⟨by rw [hlater, met_append], first ++ second, ?_, List.rel_append hmakes hmore⟩
  rw [hsecond, hfirst, List.append_assoc]

theorem Numbers.throw_bind (e : TypeError) {f : β → Convert α} :
    Numbers ((MonadExcept.throw e : Convert β) >>= f) order made := by
  intro before a after h
  obtain ⟨b, middle, hb, -⟩ := run_bind_ok h
  exact absurd hb (show EStateM.Result.error e before ≠ .ok b middle by simp)

-- What comes after a conversion may add nothing.
theorem Numbers.bindNone {f : α → Convert β} (hp : Numbers p order made)
    (hf : ∀ a, Numbers (f a) [] fun _ => []) : Numbers (p >>= f) order made := by
  have h := hp.bind hf
  simpa only [List.append_nil] using h

theorem Numbers.map {f : α → β} (hp : Numbers p order made) :
    Numbers (p >>= fun a => Pure.pure (f a)) order made := hp.bindNone fun a => .pure (f a)

theorem Numbers.ite {c : Prop} [Decidable c] {q : Convert α} (hp : c → Numbers p order made)
    (hq : ¬c → Numbers q order made) : Numbers (if c then p else q) order made := by
  split
  · exact hp ‹_›
  · exact hq ‹_›

theorem numbers_checkEllipses (elements : List Expr) :
    Numbers (checkEllipses elements) [] fun _ => [] := by
  unfold checkEllipses
  exact .ite (fun _ => .throw_bind _) fun _ => .ite (fun _ => .throw _) fun _ => .pure _

theorem numbers_nameType (names : Names) (id : Text) :
    Numbers (nameType names id) [] fun _ => [] :=
  .ite (fun _ => .throw _) fun _ => .ite (fun _ => .throw _) fun _ => .pure _

theorem numbers_openCallable (base argument result : Ty) :
    Numbers (openCallable base argument result) [] fun _ => [] :=
  .ite (fun _ => .pure _) fun _ => .throw _

-- A record takes its number before its fields are converted, and it is finished after them.
theorem numbers_record {names : Names} (name : Text) {fields : List (Text × Expr)}
    (hf : Numbers (recordFields names fields) order made) :
    Numbers (Convert.type names (.record name fields)) (⟨names, name, fields⟩ :: order) fun seen =>
      made (name :: seen) ++ [(⟨names, name, fields⟩, seen.count name)] := by
  intro before type after h
  rw [Convert.type] at h
  obtain ⟨className, opened, hopen, hrest⟩ := run_bind_ok h
  obtain ⟨constants, middle, hfields, hlast⟩ := run_bind_ok hrest
  obtain ⟨rfl, rfl⟩ := (EStateM.Result.ok.injEq ..).mp hopen
  obtain ⟨-, rfl⟩ := (EStateM.Result.ok.injEq ..).mp hlast
  obtain ⟨hopened, added, hadded, hmakes⟩ := hf hfields
  have hname := before.className_eq name
  have hrecord : MakesRecord ⟨names, name, fields⟩
      { name := before.className name
        parents := [recordParent (constants.map (·.type))]
        metaclass := none
        constants := constants
        methods := [] } :=
    ⟨⟨_, hname⟩, recordFields_ok hfields, rfl, rfl, rfl⟩
  refine ⟨by simp [hopened, met], added ++ [_], ?_,
    List.rel_append hmakes (.cons ⟨hname, hrecord⟩ .nil)⟩
  simp only [hadded, List.append_assoc]

end

-- A list of arguments, or none of them. What stands for none has no records.
theorem numbers_arguments {names : Names} {elements : List Expr} {f : List Ty → Ty}
    (ht : Numbers (types names elements) (recordsOfAll true names elements)
      fun seen => numberedAll names seen elements) :
    Numbers (if isNoArguments elements then Pure.pure (f []) else do
      return f (← types names elements)) (recordsOfAll true names elements)
      fun seen => numberedAll names seen elements := by
  refine .ite (fun hnone => ?_) fun _ => ht.map
  unfold isNoArguments at hnone
  split at hnone
  · exact .pure _
  · exact .pure _
  · simp at hnone

mutual

-- The cases are those of the conversion.
theorem numbers_type (names : Names) : ∀ e : Expr,
    Numbers (Convert.type names e) (openedRecords names e) fun seen => numberedIn names seen e
  | .name id => numbers_nameType names id
  | .question | .ellipsis | .list [] => .pure _
  | .or operands => (numbers_types names operands).map
  | .list (element :: rest) =>
      (numbers_checkEllipses _).bind fun _ => (numbers_types names (element :: rest)).map
  | .subscript value elements => by
      cases value with
      | name id =>
          simp only [openedRecords, recordsOf, numberedIn, Convert.type]
          split
          · exact numbers_callable names _ elements
          · refine .ite (fun _ => (numbers_types names elements).map) fun _ => ?_
            refine .ite (fun _ => (numbers_types names elements).map) fun _ => ?_
            exact (numbers_checkEllipses _).bind fun _ => (numbers_types names elements).map
      | _ => exact .throw _
  | .record name fields => numbers_record name (numbers_recordFields names fields)
  | .int _ | .float _ | .string _ | .bool _ | .tuple _ | .slice _ _ _ | .compare _ _ _ => .throw _

theorem numbers_types (names : Names) : ∀ elements : List Expr,
    Numbers (types names elements) (recordsOfAll true names elements)
      fun seen => numberedAll names seen elements
  | [] => .pure _
  | element :: rest => (numbers_type names element).bind fun _ => (numbers_types names rest).map

theorem numbers_callable (names : Names) (base : Ty) : ∀ elements : List Expr,
    Numbers (callable names base elements) (recordsOfCallable true names elements)
      fun seen => numberedCallable names seen elements
  | [] => .pure _
  | [.list elements] => numbers_arguments (numbers_types names elements)
  | [.list elements, result] =>
      (numbers_type names result).bind fun _ => numbers_arguments (numbers_types names elements)
  | [.name _] | [.question] | [.ellipsis] | [.or _] | [.subscript _ _] | [.record _ _]
  | [.int _] | [.float _] | [.string _] | [.bool _] | [.tuple _] | [.slice _ _ _]
  | [.compare _ _ _] =>
      (numbers_type names _).bindNone fun _ => numbers_openCallable base _ _
  | [.name _, result] | [.question, result] | [.ellipsis, result] | [.or _, result]
  | [.subscript _ _, result] | [.record _ _, result] | [.int _, result] | [.float _, result]
  | [.string _, result] | [.bool _, result] | [.tuple _, result] | [.slice _ _ _, result]
  | [.compare _ _ _, result] =>
      (numbers_type names result).bind fun _ =>
        (numbers_type names _).bindNone fun _ => numbers_openCallable base _ _
  | argument :: _ :: _ :: _ => by cases argument <;> exact .throw _

theorem numbers_recordFields (names : Names) : ∀ fields : List (Text × Expr),
    Numbers (recordFields names fields) (recordsOfFields true names fields)
      fun seen => numberedFields names seen fields
  | [] => .pure _
  | (_, field) :: rest =>
      (numbers_type names field).bind fun _ => (numbers_recordFields names rest).map

end

-- Numbered records that are finished in this order, each with the number that it takes in the order
-- in which they are opened.
structure IsNumbering (seen : List Text) (order finish : List WrittenRecord)
    (numbered : List (WrittenRecord × Nat)) : Prop where
  finished : numbered.map (·.1) = finish
  opened : numbered.Perm (withNumbers seen order)

theorem IsNumbering.nil (seen : List Text) : IsNumbering seen [] [] [] := ⟨rfl, .nil⟩

theorem IsNumbering.append {seen : List Text} {order finish more later : List WrittenRecord}
    {numbered others : List (WrittenRecord × Nat)} (h : IsNumbering seen order finish numbered)
    (hm : IsNumbering (met order seen) more later others) :
    IsNumbering seen (order ++ more) (finish ++ later) (numbered ++ others) where
  finished := by rw [List.map_append, h.finished, hm.finished]
  opened := by
    rw [withNumbers_append]
    exact h.opened.append hm.opened

-- A record is opened before its fields and finished after them.
theorem IsNumbering.record {seen : List Text} {order finish : List WrittenRecord}
    {numbered : List (WrittenRecord × Nat)} (written : WrittenRecord)
    (h : IsNumbering (written.name :: seen) order finish numbered) :
    IsNumbering seen (written :: order) (finish ++ [written])
      (numbered ++ [(written, seen.count written.name)]) where
  finished := by rw [List.map_append, h.finished]; rfl
  opened := (List.perm_append_singleton _ _).trans (h.opened.cons _)

mutual

theorem isNumbering_numberedIn (names : Names) (seen : List Text) : ∀ e : Expr,
    IsNumbering seen (openedRecords names e) (finished names e) (numberedIn names seen e)
  | .or elements | .list elements => isNumbering_numberedAll names seen elements
  | .subscript value elements => by
      cases value with
      | name id =>
          rw [openedRecords, recordsOf, finished, numberedIn]
          split
          · exact isNumbering_numberedCallable names seen elements
          · exact isNumbering_numberedAll names seen elements
      | _ => exact .nil seen
  | .record name fields => .record ⟨names, name, fields⟩
      (isNumbering_numberedFields names (name :: seen) fields)
  | .name _ | .question | .ellipsis | .int _ | .float _ | .string _ | .bool _ | .tuple _
  | .slice _ _ _ | .compare _ _ _ => .nil seen

theorem isNumbering_numberedAll (names : Names) (seen : List Text) : ∀ elements : List Expr,
    IsNumbering seen (recordsOfAll true names elements) (finishedAll names elements)
      (numberedAll names seen elements)
  | [] => .nil seen
  | e :: rest => (isNumbering_numberedIn names seen e).append (isNumbering_numberedAll names _ rest)

theorem isNumbering_numberedCallable (names : Names) (seen : List Text) :
    ∀ elements : List Expr, IsNumbering seen (recordsOfCallable true names elements)
      (finishedCallable names elements) (numberedCallable names seen elements)
  | [] | _ :: _ :: _ :: _ => .nil seen
  | [arguments] => isNumbering_numberedIn names seen arguments
  | [arguments, result] =>
      (isNumbering_numberedIn names seen result).append (isNumbering_numberedIn names _ arguments)

theorem isNumbering_numberedFields (names : Names) (seen : List Text) :
    ∀ fields : List (Text × Expr), IsNumbering seen (recordsOfFields true names fields)
      (finishedFields names fields) (numberedFields names seen fields)
  | [] => .nil seen
  | (_, type) :: rest =>
      (isNumbering_numberedIn names seen type).append (isNumbering_numberedFields names _ rest)

end

mutual

-- No callable type has records on both of its sides.
def OneSided (names : Names) : Expr → Prop
  | .or elements | .list elements => OneSidedAll names elements
  | .subscript (.name id) elements =>
      ((names.resolve id).isNamed "typing.Callable" = true → OneSidedCallable names elements) ∧
        OneSidedAll names elements
  | .record _ fields => OneSidedFields names fields
  | _ => True

def OneSidedAll (names : Names) : List Expr → Prop
  | [] => True
  | e :: rest => OneSided names e ∧ OneSidedAll names rest

def OneSidedCallable (names : Names) : List Expr → Prop
  | [arguments, result] => textRecords names arguments = [] ∨ textRecords names result = []
  | _ => True

def OneSidedFields (names : Names) : List (Text × Expr) → Prop
  | [] => True
  | (_, type) :: rest => OneSided names type ∧ OneSidedFields names rest

end

mutual

-- Records are then opened in the order of the text.
theorem openedRecords_eq {names : Names} : ∀ {e : Expr}, OneSided names e →
    openedRecords names e = textRecords names e
  | .or elements, h | .list elements, h => recordsOfAll_eq h
  | .subscript value elements, h => by
      cases value with
      | name id =>
          obtain ⟨hside, hall⟩ := h
          rw [openedRecords, textRecords, recordsOf, recordsOf]
          split
          · exact recordsOfCallable_eq (hside ‹_›) hall
          · exact recordsOfAll_eq hall
      | _ => rfl
  | .record name fields, h => congrArg (_ :: ·) (recordsOfFields_eq h)
  | .name _, _ | .question, _ | .ellipsis, _ | .int _, _ | .float _, _ | .string _, _
  | .bool _, _ | .tuple _, _ | .slice _ _ _, _ | .compare _ _ _, _ => rfl

theorem recordsOfAll_eq {names : Names} : ∀ {elements : List Expr}, OneSidedAll names elements →
    recordsOfAll true names elements = recordsOfAll false names elements
  | [], _ => rfl
  | _ :: _, ⟨hfirst, hrest⟩ => congrArg₂ (· ++ ·) (openedRecords_eq hfirst) (recordsOfAll_eq hrest)

theorem recordsOfCallable_eq {names : Names} : ∀ {elements : List Expr},
    OneSidedCallable names elements → OneSidedAll names elements →
      recordsOfCallable true names elements = recordsOfCallable false names elements
  | [], _, _ | _ :: _ :: _ :: _, _, _ => rfl
  | [_], _, ⟨h, _⟩ => openedRecords_eq h
  | [arguments, result], hside, ⟨harguments, hresult, _⟩ => by
      have ha : recordsOf true names arguments = recordsOf false names arguments :=
        openedRecords_eq harguments
      have hr : recordsOf true names result = recordsOf false names result :=
        openedRecords_eq hresult
      rw [recordsOfCallable, recordsOfCallable, if_pos rfl, if_neg Bool.false_ne_true, ha, hr]
      rcases hside with hnone | hnone <;>
        · rw [textRecords] at hnone
          simp [hnone]

theorem recordsOfFields_eq {names : Names} : ∀ {fields : List (Text × Expr)},
    OneSidedFields names fields →
      recordsOfFields true names fields = recordsOfFields false names fields
  | [], _ => rfl
  | (_, _) :: _, ⟨hfirst, hrest⟩ =>
      congrArg₂ (· ++ ·) (openedRecords_eq hfirst) (recordsOfFields_eq hrest)

end

-- Expressions that are converted one after another, each with the names that are known at its place.
inductive ConvertsEach : List (Names × Expr) → Records → Records → Prop
  | nil (records : Records) : ConvertsEach [] records records
  | cons {names : Names} {e : Expr} {rest : List (Names × Expr)} {type : Ty}
      {before middle after : Records} (he : Convert.type names e before = .ok type middle)
      (hrest : ConvertsEach rest middle after) : ConvertsEach ((names, e) :: rest) before after

theorem ConvertsEach.append {exprs more : List (Names × Expr)} {before middle after : Records}
    (h : ConvertsEach exprs before middle) (hm : ConvertsEach more middle after) :
    ConvertsEach (exprs ++ more) before after := by
  induction h with
  | nil records => exact hm
  | cons he _ ih => exact .cons he (ih hm)

def openedEach (exprs : List (Names × Expr)) : List WrittenRecord :=
  exprs.flatMap fun (names, e) => openedRecords names e

def finishedEach (exprs : List (Names × Expr)) : List WrittenRecord :=
  exprs.flatMap fun (names, e) => finished names e

-- The records of several expressions in the order in which they are finished, each with its number.
def numberedEach (seen : List Text) : List (Names × Expr) → List (WrittenRecord × Nat)
  | [] => []
  | (names, e) :: rest =>
      numberedIn names seen e ++ numberedEach (met (openedRecords names e) seen) rest

theorem isNumbering_numberedEach (seen : List Text) (exprs : List (Names × Expr)) :
    IsNumbering seen (openedEach exprs) (finishedEach exprs) (numberedEach seen exprs) := by
  induction exprs generalizing seen with
  | nil => exact .nil seen
  | cons first rest ih =>
      obtain ⟨names, e⟩ := first
      exact (isNumbering_numberedIn names seen e).append (ih _)

theorem ConvertsEach.numbers {exprs : List (Names × Expr)} {before after : Records}
    (h : ConvertsEach exprs before after) :
    after.opened = met (openedEach exprs) before.opened ∧
      ∃ added, after.classes = before.classes ++ added ∧
        List.Forall₂ MakesNumbered (numberedEach before.opened exprs) added := by
  induction h with
  | nil records => exact ⟨rfl, [], by simp, .nil⟩
  | @cons names e rest type before middle after he _ ih =>
      obtain ⟨hopened, first, hfirst, hmakes⟩ := numbers_type names e he
      obtain ⟨hlater, second, hsecond, hmore⟩ := ih
      rw [hopened] at hlater hmore
      refine ⟨hlater.trans (met_append _ _ _).symm, first ++ second, ?_,
        List.rel_append hmakes hmore⟩
      rw [hsecond, hfirst, List.append_assoc]

-- The classes are those of the records in the order in which they are finished.
theorem ConvertsEach.finishes {exprs : List (Names × Expr)} {before after : Records}
    (h : ConvertsEach exprs before after) :
    ∃ added, after.classes = before.classes ++ added ∧
      List.Forall₂ MakesRecord (finishedEach exprs) added := by
  obtain ⟨-, added, hadded, hmakes⟩ := h.numbers
  refine ⟨added, hadded, ?_⟩
  rw [← (isNumbering_numberedEach before.opened exprs).finished, List.forall₂_map_left_iff]
  exact hmakes.imp fun _ _ hc => hc.record

end TypeStub.Convert
