import TypeStub.Convert
import TypeStub.Proofs.Ensures
import TypeStub.Proofs.Grammar.Scoped

-- Faults that only a tree which no source has could give. Conditions and types that the grammar
-- makes do not give them.
namespace TypeStub

def TypeError.IsInternal : TypeError → Prop
  | .unexpected _ | .unexpectedSubscript => True
  | _ => False

def Cause.IsInternal : Cause → Prop
  | .condition cause => cause = .unsupported
  | .type cause => cause.IsInternal
  | .inClassBody _ => True
  | _ => False

-- A fault of the source itself.
def Fault.IsOrdinary (fault : Fault) : Prop := ¬ fault.cause.IsInternal

-- The messages of those that are internal. Every statement may stand in a module, so that no fault
-- has the first of them.
inductive InternalMessage : Text → Prop
  | atModuleLevel (kind : NodeKind) :
      InternalMessage ("Unexpected " ++ kind.display ++ " at module level")
  | inClassBody (kind : NodeKind) :
      InternalMessage ("Unexpected " ++ kind.display ++ " in class body")
  | inType (kind : NodeKind) : InternalMessage ("Unexpected " ++ kind.display ++ " in type")
  | subscriptInType : InternalMessage "Unexpected subscript in type"
  | condition : InternalMessage "Unsupported condition"

namespace InternalMessage

variable {message : Text}

theorem opens (h : InternalMessage message) :
    message.take 3 = "Une" ∨ message.take 3 = "Uns" ∧ message.length = 21 := by
  cases h with
  | atModuleLevel kind => exact .inl rfl
  | inClassBody kind => exact .inl rfl
  | inType kind => exact .inl rfl
  | subscriptInType => exact .inl rfl
  | condition => exact .inr ⟨rfl, rfl⟩

-- The one other message that opens in the same way.
theorem ne_secondStar (h : InternalMessage message) : message ≠ "Unexpected second *" := by
  cases h with
  | atModuleLevel kind => cases kind <;> decide
  | inClassBody kind => cases kind <;> decide
  | inType kind => cases kind <;> decide
  | subscriptInType => decide
  | condition => decide

end InternalMessage

theorem ConditionError.internalMessage_iff (cause : ConditionError) :
    InternalMessage cause.message ↔ cause = .unsupported := by
  refine ⟨fun hm => ?_, fun h => h ▸ .condition⟩
  have ho := hm.opens
  unfold ConditionError.message at ho
  cases cause with
  | unsupported => rfl
  | _ => simp at ho

theorem TypeError.internalMessage_iff (cause : TypeError) :
    InternalMessage cause.message ↔ cause.IsInternal := by
  refine ⟨fun hm => ?_, fun h => ?_⟩
  · have ho := hm.opens
    unfold TypeError.message at ho
    cases cause with
    | unexpected kind => trivial
    | unexpectedSubscript => trivial
    | _ => simp at ho
  · cases cause with
    | unexpected kind => exact .inType kind
    | unexpectedSubscript => exact .subscriptInType
    | _ => exact absurd h id

-- Nothing else is reported with such a message.
theorem Cause.internalMessage_iff (cause : Cause) :
    InternalMessage cause.message ↔ cause.IsInternal := by
  refine ⟨fun hm => ?_, fun h => ?_⟩
  · have ho := hm.opens
    unfold Cause.message at hm ho
    cases cause with
    | condition cause => exact cause.internalMessage_iff.mp hm
    | type cause => exact cause.internalMessage_iff.mp hm
    | inClassBody kind => trivial
    | secondStar => exact absurd rfl hm.ne_secondStar
    | _ => simp at ho
  · cases cause with
    | condition cause => exact cause.internalMessage_iff.mpr h
    | type cause => exact cause.internalMessage_iff.mpr h
    | inClassBody kind => exact .inClassBody kind
    | _ => exact absurd h id

namespace Condition

variable {target : Target} {version : List Int} {op : CompareOp} {right : Expr}
  {e : ConditionError}

theorem compareTuple_error (h : compareTuple version op right = .error e) :
    e = .versionNotTuple := by
  unfold compareTuple at h
  split at h
  · simp at h
  · exact (Except.error.inj h).symm

theorem compareElement_error {index : Int} (h : compareElement version index op right = .error e) :
    e = .indexOutOfRange ∨ e = .elementNotInteger := by
  obtain he | ⟨component, -, h⟩ := except_bind_error h
  · unfold element at he
    generalize (if index < 0 then index + version.length else index) = position at he
    dsimp only at he
    split at he
    · exact .inl (Except.error.inj he).symm
    · split at he
      · simp at he
      · exact .inl (Except.error.inj he).symm
  · split at h
    · simp [Pure.pure, Except.pure] at h
    · exact .inr (Except.error.inj h).symm

theorem bound_error {part : Option Expr} (h : bound part = .error e) : e = .sliceNotInteger := by
  unfold bound at h
  split at h
  · simp at h
  · simp at h
  · exact (Except.error.inj h).symm

theorem compareVersion_error {index : Option Expr}
    (h : compareVersion version index op right = .error e) : e ≠ .unsupported := by
  unfold compareVersion at h
  split at h
  · simp [compareTuple_error h]
  · obtain hb | ⟨start, -, h⟩ := except_bind_error h
    · simp [bound_error hb]
    obtain hb | ⟨stop, -, h⟩ := except_bind_error h
    · simp [bound_error hb]
    obtain hb | ⟨step, -, h⟩ := except_bind_error h
    · simp [bound_error hb]
    split at h
    · simp [compareTuple_error h]
    · simp [← Except.error.inj h]
  · obtain rfl | rfl := compareElement_error h <;> simp
  · simp [← Except.error.inj h]

theorem comparePlatform_error {platform : Text}
    (h : comparePlatform platform op right = .error e) : e ≠ .unsupported := by
  unfold comparePlatform at h
  split at h
  · split at h
    · simp at h
    · simp at h
    · simp [← Except.error.inj h]
  · simp [← Except.error.inj h]

-- A comparison that the grammar can make tests a name.
theorem comparison_error {left : Expr} (hl : left.IsSubject)
    (h : comparison target left op right = .error e) : e ≠ .unsupported := by
  have hsubject : ∃ name index, subject? left = some (name, index) := by
    cases hl with
    | name hn => exact ⟨_, _, rfl⟩
    | indexed hn hi => exact ⟨_, _, rfl⟩
  obtain ⟨name, index, hs⟩ := hsubject
  unfold comparison at h
  simp only [hs] at h
  split at h
  · exact compareVersion_error h
  · split at h
    · exact comparePlatform_error h
    · simp [← Except.error.inj h]

mutual

theorem evaluate_error (target : Target) : ∀ (condition : Expr) (e : ConditionError),
    condition.IsCondition → evaluate target condition = .error e → e ≠ .unsupported
  | .or operands, e, hc, h => by
      rw [evaluate] at h
      exact evaluateAny_error target operands e hc h
  | .compare left op right, e, hc, h => by
      rw [evaluate] at h
      exact comparison_error hc h

theorem evaluateAny_error (target : Target) : ∀ (operands : List Expr) (e : ConditionError),
    Expr.AreConditions operands → evaluateAny target operands = .error e → e ≠ .unsupported
  | [], e, _, h => by simp [evaluateAny] at h
  | operand :: rest, e, hc, h => by
      rw [evaluateAny] at h
      split at h
      · exact evaluateAny_error target rest e hc.2 h
      · exact evaluate_error target operand e hc.1 h

end

end Condition

namespace Convert

variable {names : Names}

-- A conversion that fails says what is wrong with the source.
abbrev Reports {α : Type} (p : Convert α) : Prop :=
  FailsOnly (fun _ => True) (fun e => ¬ e.IsInternal) p

theorem reports_checkEllipses (elements : List Expr) : Reports (checkEllipses elements) :=
  .ite (fun _ => .bind (.throw id) fun _ => .ite (fun _ => .throw id) fun _ => .pure)
    fun _ => .ite (fun _ => .throw id) fun _ => .pure

theorem reports_nameType (id : Text) : Reports (nameType names id) :=
  .ite (fun _ => .throw fun h => h) fun _ => .ite (fun _ => .throw fun h => h) fun _ => .pure

theorem reports_openCallable (base argument result : Ty) :
    Reports (openCallable base argument result) :=
  .ite (fun _ => .pure) fun _ => .throw id

theorem reports_openRecord (name : Text) : Reports (openRecord name) :=
  .total fun _ => ⟨_, _, rfl⟩

theorem reports_addRecord (className : Text) (fields : List Constant) :
    Reports (addRecord className fields) :=
  .total fun _ => ⟨_, _, rfl⟩

mutual

-- A type that the grammar can make has no part that is no type.
theorem reports_type : ∀ e : Expr, e.IsType → Reports (Convert.type names e)
  | .name id, _ => reports_nameType id
  | .question, _ | .ellipsis, _ | .list [], _ => .pure
  | .or operands, h => .bind (reports_types operands h.2) fun _ => .pure
  | .list (element :: rest), h =>
      .bind (reports_checkEllipses _) fun _ =>
        .bind (reports_types (element :: rest) h) fun _ => .pure
  | .subscript (.name id) elements, h => by
      have htypes := reports_types elements h.2.2
      refine .ite (fun _ => reports_callable _ elements h.2.2) fun _ => ?_
      refine .ite (fun _ => .bind htypes fun _ => .pure) fun _ => ?_
      refine .ite (fun _ => .bind htypes fun _ => .pure) fun _ => ?_
      exact .bind (reports_checkEllipses _) fun _ => .bind htypes fun _ => .pure
  | .record name fields, h =>
      .bind (reports_openRecord name) fun _ =>
        .bind (reports_recordFields fields h) fun _ => reports_addRecord _ _

theorem reports_types : ∀ elements : List Expr, Expr.AreTypes elements →
    Reports (Convert.types names elements)
  | [], _ => .pure
  | element :: rest, h =>
      .bind (reports_type element h.1) fun _ => .bind (reports_types rest h.2) fun _ => .pure

theorem reports_callable (base : Ty) : ∀ elements : List Expr, Expr.AreTypes elements →
    Reports (Convert.callable names base elements)
  | [], _ => .pure
  | [.list elements], h =>
      .ite (fun _ => .pure) fun _ => .bind (reports_types elements h.1) fun _ => .pure
  | [.list elements, result], h =>
      .bind (reports_type result h.2.1) fun _ =>
        .ite (fun _ => .pure) fun _ => .bind (reports_types elements h.1) fun _ => .pure
  | [.name _], h | [.question], h | [.ellipsis], h | [.or _], h
  | [.subscript _ _], h | [.record _ _], h =>
      .bind (reports_type _ h.1) fun _ => reports_openCallable _ _ _
  | [.name _, result], h | [.question, result], h | [.ellipsis, result], h
  | [.or _, result], h | [.subscript _ _, result], h | [.record _ _, result], h =>
      .bind (reports_type result h.2.1) fun _ =>
        .bind (reports_type _ h.1) fun _ => reports_openCallable _ _ _
  | argument :: _ :: _ :: _, _ => by cases argument <;> exact .throw id

theorem reports_recordFields : ∀ fields : List (Text × Expr), Expr.AreFields fields →
    Reports (Convert.recordFields names fields)
  | [], _ => .pure
  | (_, field) :: rest, h =>
      .bind (reports_type field h.1) fun _ => .bind (reports_recordFields rest h.2) fun _ => .pure

end

end Convert

end TypeStub
