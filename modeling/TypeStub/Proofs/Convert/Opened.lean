import TypeStub.Convert
import TypeStub.Proofs.Convert.Titles

namespace TypeStub

-- The names of the records in an expression.
mutual

def Expr.recordNames : Expr → List Text
  | .tuple elements | .list elements | .or elements => recordNamesAll elements
  | .subscript value elements => value.recordNames ++ recordNamesAll elements
  | .compare left _ right => left.recordNames ++ right.recordNames
  | .record label fields => label :: recordNamesFields fields
  | _ => []

def Expr.recordNamesAll : List Expr → List Text
  | [] => []
  | e :: rest => e.recordNames ++ recordNamesAll rest

def Expr.recordNamesFields : List (Text × Expr) → List Text
  | [] => []
  | (_, type) :: rest => type.recordNames ++ recordNamesFields rest

end

theorem Expr.recordNamesAll_singleton (e : Expr) : Expr.recordNamesAll [e] = e.recordNames :=
  List.append_nil _

namespace Convert

-- What a conversion adds to the records: it opens only names that are requested, and the classes
-- it adds have the class names of records that it opened.
def Adds (requested : List Text) (before after : Records) : Prop :=
  ∃ opened added, after.opened = opened ++ before.opened ∧
    after.classes.map (·.name) = before.classes.map (·.name) ++ added ∧
    opened.Subperm requested ∧ (added ++ titles before.opened).Subperm (titles after.opened)

-- It opens all that are requested and adds a class for each.
structure Completes (requested : List Text) (before after : Records) : Prop where
  opened : after.opened.length = before.opened.length + requested.length
  classes : after.classes.length = before.classes.length + requested.length

-- A conversion that opens no other names, and all of them when it succeeds.
def Opens {α : Type} (p : Convert α) (requested : List Text) : Prop :=
  ∀ before, match p before with
    | .ok _ after => Adds requested before after ∧ Completes requested before after
    | .error _ after => Adds requested before after

section

variable {before middle after : Records} {requested more : List Text}

theorem Adds.refl (requested : List Text) (records : Records) : Adds requested records records :=
  ⟨[], [], rfl, (List.append_nil _).symm, List.nil_subperm, .refl _⟩

theorem Adds.trans (h : Adds requested before middle) (hm : Adds more middle after) :
    Adds (requested ++ more) before after := by
  obtain ⟨opened, added, hopened, hclasses, hreq, htitles⟩ := h
  obtain ⟨opened', added', hopened', hclasses', hreq', htitles'⟩ := hm
  refine ⟨opened' ++ opened, added ++ added', ?_, ?_, ?_, ?_⟩
  · rw [hopened', hopened, List.append_assoc]
  · rw [hclasses', hclasses, List.append_assoc]
  · exact List.perm_append_comm.subperm.trans (hreq.append hreq')
  · have hswap : (added ++ added' ++ titles before.opened).Perm
        (added' ++ (added ++ titles before.opened)) := by
      rw [← List.append_assoc]
      exact List.perm_append_comm.append_right _
    exact hswap.subperm.trans (((List.Subperm.refl added').append htitles).trans htitles')

theorem Adds.mono (h : Adds requested before after) (hr : requested.Subperm more) :
    Adds more before after := by
  obtain ⟨opened, added, hopened, hclasses, hreq, htitles⟩ := h
  exact ⟨opened, added, hopened, hclasses, hreq.trans hr, htitles⟩

theorem Completes.trans (h : Completes requested before middle)
    (hm : Completes more middle after) : Completes (requested ++ more) before after := by
  have ho := h.opened
  have ho' := hm.opened
  have hc := h.classes
  have hc' := hm.classes
  exact ⟨by rw [List.length_append]; omega, by rw [List.length_append]; omega⟩

end

section

variable {α β : Type} {p : Convert α} {requested more : List Text}

theorem Opens.pure (a : α) : Opens (Pure.pure a) [] :=
  fun before => ⟨.refl [] before, ⟨rfl, rfl⟩⟩

theorem Opens.throw (e : TypeError) : Opens (throw e : Convert α) requested :=
  fun before => .refl requested before

theorem Opens.throw_bind (e : TypeError) {f : β → Convert α} :
    Opens ((MonadExcept.throw e : Convert β) >>= f) requested := fun before => .refl requested before

theorem Opens.bind {f : α → Convert β} (hp : Opens p requested) (hf : ∀ a, Opens (f a) more) :
    Opens (p >>= f) (requested ++ more) := by
  intro before
  have ho := hp before
  simp only [Bind.bind, EStateM.bind]
  cases hr : p before with
  | error e middle =>
      rw [hr] at ho
      exact ho.mono (List.sublist_append_left ..).subperm
  | ok a middle =>
      rw [hr] at ho
      have hafter := hf a middle
      dsimp only
      cases hb : f a middle with
      | ok b after =>
          rw [hb] at hafter
          exact ⟨ho.1.trans hafter.1, ho.2.trans hafter.2⟩
      | error e after =>
          rw [hb] at hafter
          exact ho.1.trans hafter

theorem Opens.map {f : α → β} (hp : Opens p requested) :
    Opens (p >>= fun a => Pure.pure (f a)) requested := by
  have h := hp.bind fun a => Opens.pure (f a)
  rwa [List.append_nil] at h

theorem Opens.perm (hp : Opens p requested) (h : requested.Perm more) : Opens p more := by
  intro before
  have ho := hp before
  cases hr : p before with
  | ok a after =>
      rw [hr] at ho
      obtain ⟨hadds, hopened, hclasses⟩ := ho
      rw [h.length_eq] at hopened hclasses
      exact ⟨hadds.mono h.subperm, hopened, hclasses⟩
  | error e after =>
      rw [hr] at ho
      exact ho.mono h.subperm

theorem Opens.ite {c : Prop} [Decidable c] {q : Convert α} (hp : c → Opens p requested)
    (hq : ¬c → Opens q requested) : Opens (if c then p else q) requested := by
  split
  · exact hp ‹_›
  · exact hq ‹_›

-- A record opens its name before its fields, and its class comes after theirs.
theorem Opens.record (name : Text) {fields : Convert (List Constant)}
    (hf : Opens fields requested) :
    Opens (do addRecord (← openRecord name) (← fields)) (name :: requested) := by
  intro before
  have ho := hf { before with opened := name :: before.opened }
  simp only [Bind.bind, EStateM.bind, openRecord]
  cases hr : fields { before with opened := name :: before.opened } with
  | error e after =>
      rw [hr] at ho
      obtain ⟨opened, added, hopened, hclasses, hreq, htitles⟩ := ho
      refine ⟨opened ++ [name], added, by simp [hopened], hclasses, ?_, ?_⟩
      · exact List.perm_append_comm.subperm.trans ((List.subperm_cons name).mpr hreq)
      · have hless : (added ++ titles before.opened).Subperm
            (added ++ titles (name :: before.opened)) :=
          (List.Subperm.refl added).append (List.sublist_cons_self ..).subperm
        exact hless.trans htitles
  | ok constants after =>
      rw [hr] at ho
      obtain ⟨⟨opened, added, hopened, hclasses, hreq, htitles⟩, hcomplete⟩ := ho
      have hcount := hcomplete.opened
      have hmany := hcomplete.classes
      refine ⟨⟨opened ++ [name], added ++ [before.className name], by simp [hopened], ?_, ?_, ?_⟩,
        ?_, ?_⟩
      · simp [hclasses]
      · exact List.perm_append_comm.subperm.trans ((List.subperm_cons name).mpr hreq)
      · rw [List.append_assoc, Records.className_eq]
        exact htitles
      · simpa [Nat.add_assoc, Nat.add_comm 1] using hcount
      · simpa [← Nat.add_assoc] using hmany

theorem opens_checkEllipses (elements : List Expr) : Opens (checkEllipses elements) [] := by
  unfold checkEllipses
  exact .ite (fun _ => .throw_bind _) fun _ => .ite (fun _ => .throw _) fun _ => .pure _

theorem opens_nameType (names : Names) (id : Text) : Opens (nameType names id) [] :=
  .ite (fun _ => .throw _) fun _ => .ite (fun _ => .throw _) fun _ => .pure _

theorem recordNames_of_isNoArguments {elements : List Expr} (h : isNoArguments elements = true) :
    Expr.recordNamesAll elements = [] := by
  unfold isNoArguments at h
  split at h
  · rfl
  · rfl
  · simp at h

-- A list of arguments, or none of them.
theorem Opens.arguments {elements : List Expr} {types : Convert (List Ty)} {f : List Ty → Ty}
    (ht : Opens types (Expr.recordNamesAll elements)) :
    Opens (if isNoArguments elements then Pure.pure (f []) else do return f (← types))
      (Expr.recordNamesAll elements) := by
  refine .ite (fun hnone => ?_) fun _ => ht.map
  rw [recordNames_of_isNoArguments hnone]
  exact .pure _

theorem opens_openCallable (base argument result : Ty) :
    Opens (openCallable base argument result) [] :=
  .ite (fun _ => .pure _) fun _ => .throw _

end

mutual

-- The cases are those of the conversion.
theorem opens_type (names : Names) : ∀ e : Expr, Opens (Convert.type names e) e.recordNames
  | .name id => opens_nameType names id
  | .question | .ellipsis | .list [] => .pure _
  | .or operands => (opens_types names operands).map
  | .list (element :: rest) =>
      (opens_checkEllipses _).bind fun _ => (opens_types names (element :: rest)).map
  | .subscript (.name id) elements => by
      refine .ite (fun _ => opens_callable names _ elements) fun _ => ?_
      refine .ite (fun _ => (opens_types names elements).map) fun _ => ?_
      refine .ite (fun _ => (opens_types names elements).map) fun _ => ?_
      exact (opens_checkEllipses _).bind fun _ => (opens_types names elements).map
  | .record name fields => .record name (opens_recordFields names fields)
  | .int _ | .float _ | .string _ | .bool _ | .tuple _ | .slice _ _ _ | .compare _ _ _ => .throw _
  | .subscript (.question) _ | .subscript (.ellipsis) _ | .subscript (.or _) _
  | .subscript (.list _) _ | .subscript (.subscript _ _) _ | .subscript (.record _ _) _
  | .subscript (.int _) _ | .subscript (.float _) _ | .subscript (.string _) _
  | .subscript (.bool _) _ | .subscript (.tuple _) _ | .subscript (.slice _ _ _) _
  | .subscript (.compare _ _ _) _ => .throw _

theorem opens_types (names : Names) :
    ∀ elements : List Expr, Opens (Convert.types names elements) (Expr.recordNamesAll elements)
  | [] => .pure _
  | element :: rest => (opens_type names element).bind fun _ => (opens_types names rest).map

theorem opens_callable (names : Names) (base : Ty) : ∀ elements : List Expr,
    Opens (Convert.callable names base elements) (Expr.recordNamesAll elements)
  | [] => .pure _
  | [.list elements] => by
      rw [Expr.recordNamesAll_singleton]
      exact .arguments (opens_types names elements)
  | [.list elements, result] => by
      refine .perm ((opens_type names result).bind fun result =>
        .arguments (opens_types names elements)) ?_
      rw [Expr.recordNamesAll, Expr.recordNamesAll_singleton]
      exact List.perm_append_comm
  | [.name _] | [.question] | [.ellipsis] | [.or _] | [.subscript _ _] | [.record _ _]
  | [.int _] | [.float _] | [.string _] | [.bool _] | [.tuple _] | [.slice _ _ _]
  | [.compare _ _ _] =>
      (opens_type names _).bind fun _ => opens_openCallable base _ _
  | [.name _, result] | [.question, result] | [.ellipsis, result] | [.or _, result]
  | [.subscript _ _, result] | [.record _ _, result] | [.int _, result] | [.float _, result]
  | [.string _, result] | [.bool _, result] | [.tuple _, result] | [.slice _ _ _, result]
  | [.compare _ _ _, result] =>
      .perm ((opens_type names result).bind fun _ =>
        (opens_type names _).bind fun _ => opens_openCallable base _ _)
        (by simpa [Expr.recordNamesAll] using List.perm_append_comm)
  | argument :: _ :: _ :: _ => by cases argument <;> exact .throw _

theorem opens_recordFields (names : Names) : ∀ fields : List (Text × Expr),
    Opens (Convert.recordFields names fields) (Expr.recordNamesFields fields)
  | [] => .pure _
  | (_, field) :: rest => (opens_type names field).bind fun _ => (opens_recordFields names rest).map

end

end Convert

namespace Conversions

variable {names : Names}

-- The names of the records in the expressions.
def requested (expressions : List (Expr × Int)) : List Text :=
  expressions.flatMap (·.1.recordNames)

theorem run_adds (expressions : List (Expr × Int)) : ∀ state : State,
    Convert.Adds (requested expressions) state.records (run names state expressions).2.records ∧
      ((∀ outcome ∈ (run names state expressions).1, ∃ type, outcome = .ok type) →
        Convert.Completes (requested expressions) state.records
          (run names state expressions).2.records) := by
  induction expressions with
  | nil => exact fun state => ⟨.refl _ _, fun _ => ⟨rfl, rfl⟩⟩
  | cons first rest ih =>
      obtain ⟨e, line⟩ := first
      intro state
      have hfirst := Convert.opens_type names e state.records
      have hrequested : requested ((e, line) :: rest) = e.recordNames ++ requested rest := rfl
      obtain ⟨hadds, hcompletes⟩ := ih (step names state e line).2
      rw [hrequested]
      simp only [run]
      cases hr : Convert.type names e state.records with
      | ok type records =>
          rw [hr] at hfirst
          have hstep : step names state e line = (.ok type, { state with records := records }) := by
            simp only [step, hr]
          rw [hstep] at hadds hcompletes ⊢
          exact ⟨hfirst.1.trans hadds, fun hall =>
            hfirst.2.trans (hcompletes (List.forall_mem_cons.mp hall).2)⟩
      | error cause records =>
          rw [hr] at hfirst
          have hrecords : (step names state e line).2.records = records := by
            simp only [step, hr]
          have hfails : ∀ type, (step names state e line).1 ≠ .ok type := by
            simp only [step, hr]
            simp
          rw [hrecords] at hadds
          refine ⟨hfirst.trans hadds, fun hall => ?_⟩
          obtain ⟨type, htype⟩ := (List.forall_mem_cons.mp hall).1
          exact absurd htype (hfails type)

-- The names of the classes made for them, from no records on.
def classNames (names : Names) (expressions : List (Expr × Int)) : List Text :=
  (run names start expressions).2.records.classes.map (·.name)

-- The classes of records have distinct names unless two of the names that are asked for collide, as
-- identifiers never do. If all expressions are types, colliding names do make a name twice.
theorem run_distinct (names : Names) (expressions : List (Expr × Int)) :
    (¬ Collides (requested expressions) → (classNames names expressions).Nodup) ∧
      ((∀ outcome ∈ (run names start expressions).1, ∃ type, outcome = .ok type) →
        ((classNames names expressions).Nodup ↔ ¬ Collides (requested expressions))) ∧
      ((∀ name ∈ requested expressions, Identifier name) →
        (classNames names expressions).Nodup) := by
  obtain ⟨⟨opened, added, hopened, hclasses, hrequested, htitles⟩, hcompletes⟩ :=
    run_adds expressions start
  replace hopened : (run names start expressions).2.records.opened = opened := by
    rw [hopened]
    exact List.append_nil _
  replace hclasses : classNames names expressions = added := hclasses
  replace htitles : added.Subperm (titles opened) := by
    rw [hopened] at htitles
    simpa [start, Records.none, titles] using htitles
  have hdistinct : ¬ Collides (requested expressions) → (classNames names expressions).Nodup := by
    intro hno
    obtain ⟨kept, hperm, hsub⟩ := htitles
    rw [hclasses, ← hperm.nodup_iff]
    exact (nodup_titles.mpr fun hc => hno (hc.mono hrequested)).sublist hsub
  refine ⟨hdistinct, fun hall => ⟨fun hnodup hc => ?_, hdistinct⟩, fun hidentifiers => ?_⟩
  · obtain ⟨hlength, hmany⟩ := hcompletes hall
    have hopens : opened.length = (requested expressions).length := by
      rw [← hopened, hlength]
      exact Nat.zero_add _
    have hadded : added.length = (requested expressions).length := by
      rw [← hclasses, classNames, List.length_map, hmany]
      exact Nat.zero_add _
    have hwhole : added.Perm (titles opened) :=
      htitles.perm_of_length_le (by rw [length_titles]; omega)
    rw [hclasses, hwhole.nodup_iff, nodup_titles] at hnodup
    exact hnodup (hc.mono (hrequested.perm_of_length_le (by omega)).symm.subperm)
  · exact hdistinct (not_collides_of_identifiers hidentifiers)

-- A record whose name is that of an earlier one with a number gets the class name of another.
theorem run_repeats : ¬ ∀ names expressions, (classNames names expressions).Nodup := by
  intro h
  exact absurd (h (Names.empty true) [(.record "a" [], 1), (.record "a" [], 1),
    (.record "a~1" [], 1)]) (by decide)

end Conversions

end TypeStub
