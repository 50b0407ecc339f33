import TypeStub.Proofs.Build.Internal
import TypeStub.Proofs.Live.Faults

-- What the grammar makes is at fault for reasons of the source only.
namespace TypeStub

variable {names : Names} {cause : Cause}

theorem WrongType.ordinary {types : List Expr} (h : WrongType names types cause)
    (ht : ∀ e ∈ types, e.IsType) : ¬cause.IsInternal := by
  obtain ⟨e, he, error, ⟨records, after, hc⟩, rfl⟩ := h
  exact Convert.reports_type e (ht e he) trivial hc

theorem Cause.IsOrder.ordinary (h : cause.IsOrder) : ¬cause.IsInternal := by
  cases cause <;> first | exact id | exact absurd h id

theorem Cause.IsMerge.ordinary (h : cause.IsMerge) : ¬cause.IsInternal := by
  cases cause <;> first | exact id | exact absurd h id

theorem Param.IsWritten.hint {p : Param} (h : p.IsWritten) : ∀ e ∈ p.hint?, e.IsType := by
  cases p with
  | ordinary name hint default => exact h.2
  | star name hint => exact h.2
  | doubleStar name hint => exact h.2
  | bareStar => simp [Param.hint?]
  | ellipsis => simp [Param.hint?]

theorem DefBody.IsWritten.types {body : DefBody} (h : body.IsWritten) :
    ∀ e ∈ body.types, e.IsType := by
  cases body with
  | external => simp [DefBody.types]
  | declared params returns raises mutators =>
      obtain ⟨hp, hr, hx, hm⟩ := h
      simp only [DefBody.types, List.mem_append, List.mem_flatMap, Option.mem_toList, List.mem_map]
      rintro e (⟨p, hmem, he⟩ | he | he | ⟨m, hmem, rfl⟩)
      · exact (hp p hmem).hint e he
      · exact hr e he
      · exact hx e he
      · exact hm m hmem

theorem DefBody.Wrong.ordinary {body : DefBody} (h : body.Wrong names cause)
    (hb : body.IsWritten) : ¬cause.IsInternal := by
  cases h with
  | type h => exact h.ordinary hb.types
  | order hc _ => exact hc.ordinary
  | mutator _ _ => exact id

theorem Def.Wrong.ordinary {d : Def} (h : d.Wrong names cause) (hd : d.IsWritten) :
    ¬cause.IsInternal := by
  cases h with
  | decorators h => exact id
  | body h => exact h.ordinary hd.2.2

theorem Assigned.IsWritten.types {assigned : Assigned} (h : assigned.IsWritten)
    (hz : ¬assigned.isNonZero) : ∀ e ∈ assigned.hints ++ assigned.synonyms, e.IsType := by
  cases assigned with
  | declared hint placeholder =>
      have hhint : hint.IsType := h
      simpa [Assigned.hints, Assigned.synonyms] using hhint
  | value given comment =>
      obtain ⟨hg, hc⟩ := h
      simp only [Assigned.hints, Assigned.synonyms]
      cases given with
      | ellipsis => simpa [Expr.isConstant] using hc
      | int n => simpa [Expr.isConstant] using hc
      | bool b => simpa [Expr.isConstant] using hc
      | float x => exact absurd trivial hz
      | _ => exact List.forall_mem_singleton.mpr hg

theorem WrongArguments.ordinary {args : List ClassArg} (h : WrongArguments names args cause)
    (ha : ∀ arg ∈ args, arg.value.IsType) : ¬cause.IsInternal := by
  cases h with
  | type h => exact h.ordinary (by simpa using ha)
  | keyword _ _ _ => exact id
  | metaclass _ _ _ => exact id

theorem Stmt.Faulty.ordinary {statement : Stmt} (h : statement.Faulty names cause)
    (hw : statement.IsWritten) : ¬cause.IsInternal := by
  cases h with
  | definition h => exact h.ordinary hw
  | assign h =>
      cases h with
      | number h => exact id
      | type hz h => exact h.ordinary (hw.2.types hz)
  | typeVar h => exact h.ordinary hw.2
  | typeVarName h => exact id
  | renamed hm h => exact id
  | arguments h => exact h.ordinary hw.2.1
  | illegalAlias hb hz hv h => exact id
  | merge hn hr h => exact (Merge.faultAt_classMembers h).cause.ordinary
  | members hne h => exact id

mutual

theorem Stmt.IsWritten.nested : ∀ {statement : Stmt}, statement.IsWritten →
    ∀ inner ∈ statement.nested, inner.IsWritten
  | .conditional _ _ _ _ _, h, inner, hi => by
      rw [Stmt.nested, List.mem_cons, List.mem_append] at hi
      rcases hi with rfl | hi | hi
      · exact h
      · exact h.1.nested inner hi
      · exact h.2.nested inner hi
  | .classDef _ _ _ _, h, inner, hi => by
      rw [Stmt.nested, List.mem_cons] at hi
      rcases hi with rfl | hi
      · exact h
      · exact h.2.2.nested inner hi
  | .definition _ _, h, _, hi | .assign _ _ _, h, _, hi | .typeVar _ _ _ _ _, h, _, hi
  | .importModules _ _, h, _, hi | .importFrom _ _ _, h, _, hi | .importAll _ _, h, _, hi =>
      List.mem_singleton.mp hi ▸ h

theorem Stmt.AreWritten.nested : ∀ {body : List Stmt}, AreWritten body →
    ∀ inner ∈ nestedAll body, inner.IsWritten
  | _ :: _, h, inner, hi => by
      rw [nestedAll, List.mem_append] at hi
      exact hi.elim (h.1.nested inner) (h.2.nested inner)

end

namespace Live

-- A statement of live code is blamed for what is wrong with the source.
theorem BlamesAmong.ordinary {live : List Stmt} {fault : Fault} (h : BlamesAmong names live fault)
    (hw : Stmt.AreWritten live) : fault.IsOrdinary := by
  obtain ⟨place, hm, inner, hi, cause, hf, rfl⟩ := h
  exact hf.ordinary (hw.nested inner (Stmt.mem_nestedAll.mpr ⟨place.2, mem_of_mem_known hm, hi⟩))

end Live

end TypeStub
