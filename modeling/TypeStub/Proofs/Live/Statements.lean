import TypeStub.Proofs.Grammar.Scoped
import TypeStub.Proofs.Live.Selection

-- The statements that a target leaves, as they are written.
namespace TypeStub.Live

mutual

def liveStmt (target : Target) : Stmt → List Stmt
  | .conditional place isElif condition thenBody elseBody =>
      .conditional place isElif condition thenBody elseBody ::
        if selects target condition then liveCode target thenBody else liveCode target elseBody
  | .classDef place name args body => .classDef place name args body :: liveCode target body
  | statement => [statement]

-- The statements of live code at any depth: of a conditional it has the branch that is selected.
def liveCode (target : Target) : List Stmt → List Stmt
  | [] => []
  | statement :: rest => liveStmt target statement ++ liveCode target rest

end

mutual

theorem nested_of_mem_liveStmt {target : Target} : ∀ {statement inner : Stmt},
    inner ∈ liveStmt target statement → inner ∈ statement.nested
  | .conditional _ _ condition thenBody elseBody, inner, h => by
      rw [liveStmt, List.mem_cons] at h
      rw [Stmt.nested, List.mem_cons, List.mem_append]
      refine h.imp_right fun h => ?_
      split at h
      · exact .inl (nested_of_mem_liveCode h)
      · exact .inr (nested_of_mem_liveCode h)
  | .classDef _ _ _ body, inner, h => by
      rw [liveStmt, List.mem_cons] at h
      rw [Stmt.nested, List.mem_cons]
      exact h.imp_right nested_of_mem_liveCode
  | .definition _ _, _, h | .assign _ _ _, _, h | .typeVar _ _ _ _ _, _, h
  | .importModules _ _, _, h | .importFrom _ _ _, _, h | .importAll _ _, _, h => h

theorem nested_of_mem_liveCode {target : Target} : ∀ {body : List Stmt} {inner : Stmt},
    inner ∈ liveCode target body → inner ∈ Stmt.nestedAll body
  | statement :: rest, inner, h => by
      rw [liveCode, List.mem_append] at h
      rw [Stmt.nestedAll, List.mem_append]
      exact h.imp nested_of_mem_liveStmt nested_of_mem_liveCode

end

mutual

theorem liveStmt_of_mem_reachedStmt {target : Target} : ∀ {path : Path} {statement : Stmt}
    {b : Branching}, b ∈ reachedStmt target path statement →
      ∃ place isElif thenBody elseBody, place.line = b.line ∧
        Stmt.conditional place isElif b.condition thenBody elseBody ∈ liveStmt target statement
  | path, .conditional place isElif condition thenBody elseBody, b, h => by
      rw [reachedStmt, List.mem_cons] at h
      rcases h with rfl | h
      · exact ⟨place, isElif, thenBody, elseBody, rfl, List.mem_cons_self⟩
      · rw [liveStmt]
        split at h
        · rename_i hs
          obtain ⟨place, isElif, t, e, hline, hm⟩ := liveCode_of_mem_reached h
          exact ⟨place, isElif, t, e, hline, List.mem_cons_of_mem _ (by rwa [if_pos hs])⟩
        · rename_i hs
          obtain ⟨place, isElif, t, e, hline, hm⟩ := liveCode_of_mem_reached h
          exact ⟨place, isElif, t, e, hline, List.mem_cons_of_mem _ (by rwa [if_neg hs])⟩
  | path, .classDef _ _ _ body, b, h => by
      obtain ⟨place, isElif, t, e, hline, hm⟩ := liveCode_of_mem_reached h
      exact ⟨place, isElif, t, e, hline, List.mem_cons_of_mem _ hm⟩

-- The conditionals that are met on the way through live code are statements of it.
theorem liveCode_of_mem_reached {target : Target} : ∀ {path : Path} {position : Nat}
    {body : List Stmt} {b : Branching}, b ∈ reached target path position body →
      ∃ place isElif thenBody elseBody, place.line = b.line ∧
        Stmt.conditional place isElif b.condition thenBody elseBody ∈ liveCode target body
  | path, position, statement :: rest, b, h => by
      rw [reached, List.mem_append] at h
      rw [liveCode]
      rcases h with h | h
      · obtain ⟨place, isElif, t, e, hline, hm⟩ := liveStmt_of_mem_reachedStmt h
        exact ⟨place, isElif, t, e, hline, List.mem_append_left _ hm⟩
      · obtain ⟨place, isElif, t, e, hline, hm⟩ := liveCode_of_mem_reached h
        exact ⟨place, isElif, t, e, hline, List.mem_append_right _ hm⟩

end

mutual

theorem liveStmt_of_mem_flattenStmt {target : Target} : ∀ {statement inner : Stmt},
    inner ∈ Stmt.nestedAll (flattenStmt target statement) →
      ∃ written ∈ liveStmt target statement, written.kind ≠ .ifStmt ∧
        flattenStmt target written = [inner]
  | .conditional _ _ condition thenBody elseBody, inner, h => by
      rw [flattenStmt] at h
      rw [liveStmt]
      split at h
      · rename_i hs
        obtain ⟨written, hm, he⟩ := liveCode_of_mem_flatten h
        exact ⟨written, List.mem_cons_of_mem _ (by rwa [if_pos hs]), he⟩
      · rename_i hs
        obtain ⟨written, hm, he⟩ := liveCode_of_mem_flatten h
        exact ⟨written, List.mem_cons_of_mem _ (by rwa [if_neg hs]), he⟩
  | .classDef place name args body, inner, h => by
      rw [flattenStmt, Stmt.nestedAll, Stmt.nestedAll, List.append_nil, Stmt.nested,
        List.mem_cons] at h
      rw [liveStmt]
      rcases h with rfl | h
      · exact ⟨_, List.mem_cons_self, nofun, rfl⟩
      · obtain ⟨written, hm, he⟩ := liveCode_of_mem_flatten h
        exact ⟨written, List.mem_cons_of_mem _ hm, he⟩
  | .definition _ _, _, h | .assign _ _ _, _, h | .typeVar _ _ _ _ _, _, h
  | .importModules _ _, _, h | .importFrom _ _ _, _, h | .importAll _ _, _, h => by
      obtain rfl := List.mem_singleton.mp h
      exact ⟨_, List.mem_singleton_self _, nofun, rfl⟩

-- What flattening leaves is live code, without conditionals in the bodies of its classes.
theorem liveCode_of_mem_flatten {target : Target} : ∀ {body : List Stmt} {inner : Stmt},
    inner ∈ Stmt.nestedAll (flatten target body) →
      ∃ written ∈ liveCode target body, written.kind ≠ .ifStmt ∧
        flattenStmt target written = [inner]
  | statement :: rest, inner, h => by
      rw [flatten, Stmt.nestedAll_append, List.mem_append] at h
      rw [liveCode]
      rcases h with h | h
      · obtain ⟨written, hm, he⟩ := liveStmt_of_mem_flattenStmt h
        exact ⟨written, List.mem_append_left _ hm, he⟩
      · obtain ⟨written, hm, he⟩ := liveCode_of_mem_flatten h
        exact ⟨written, List.mem_append_right _ hm, he⟩

end

theorem place_of_flattenStmt {target : Target} {written inner : Stmt}
    (hk : written.kind ≠ .ifStmt) (h : flattenStmt target written = [inner]) :
    inner.place = written.place := by
  cases written with
  | conditional => exact absurd rfl hk
  | _ => exact List.singleton_inj.mp h ▸ rfl

mutual

theorem areWritten_flattenStmt (target : Target) : ∀ {statement : Stmt}, statement.IsWritten →
    Stmt.AreWritten (flattenStmt target statement)
  | .conditional _ _ condition _ _, h => by
      rw [flattenStmt]
      split
      · exact areWritten_flatten target h.1
      · exact areWritten_flatten target h.2
  | .classDef _ _ _ _, h => ⟨⟨h.1, h.2.1, areWritten_flatten target h.2.2⟩, trivial⟩
  | .definition _ _, h | .assign _ _ _, h | .typeVar _ _ _ _ _, h
  | .importModules _ _, h | .importFrom _ _ _, h | .importAll _ _, h => ⟨h, trivial⟩

theorem areWritten_flatten (target : Target) : ∀ {body : List Stmt}, Stmt.AreWritten body →
    Stmt.AreWritten (flatten target body)
  | [], _ => trivial
  | _ :: _, h => (areWritten_flattenStmt target h.1).append (areWritten_flatten target h.2)

end

mutual

theorem allScoped_flattenStmt (target : Target) {scope : Grammar.Scope} : ∀ {statement : Stmt},
    statement.Scoped scope → Stmt.AllScoped scope (flattenStmt target statement)
  | .conditional _ _ condition _ _, h => by
      rw [flattenStmt]
      split
      · exact allScoped_flatten target h.1
      · exact allScoped_flatten target h.2
  | .classDef _ _ _ _, h => ⟨⟨h.1, allScoped_flatten target h.2⟩, trivial⟩
  | .definition _ _, h | .assign _ _ _, h | .typeVar _ _ _ _ _, h
  | .importModules _ _, h | .importFrom _ _ _, h | .importAll _ _, h => ⟨h, trivial⟩

-- The branches of a conditional belong in its scope.
theorem allScoped_flatten (target : Target) {scope : Grammar.Scope} : ∀ {body : List Stmt},
    Stmt.AllScoped scope body → Stmt.AllScoped scope (flatten target body)
  | [], _ => trivial
  | _ :: _, h => (allScoped_flattenStmt target h.1).append (allScoped_flatten target h.2)

end

end TypeStub.Live
