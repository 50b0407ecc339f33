import TypeStub.Grammar.Stub
import TypeStub.Proofs.Grammar.Walk
import TypeStub.Proofs.Token.Shape

namespace TypeStub

theorem Margin.stream_tokens {m : Margin} (h : ∀ t ∈ m.tokens, t.Lexed) :
    Parser.Stream m.tokens := by
  refine ⟨h, ?_⟩
  obtain ⟨body, tail, htokens, -, hending⟩ := m.tokens_ending
  rw [htokens]
  cases hending with
  | @regular e he => exact ⟨body, e, rfl, he⟩
  | @failed f e hf he => exact ⟨body ++ [f], e, by simp, he⟩

-- The tokens of a source are such as the grammar walks over.
theorem stream_tokenize (source : Text) : Parser.Stream (tokenize (sourceLines source)) :=
  Margin.stream_tokens (m := Margin.initial (sourceLines source)) (tokenize_lexed source)

-- A source parses when the grammar takes its tokens.
theorem module_of_parseSource {source : Text} {body : List Stmt}
    (h : parseSource source = .ok body) :
    ∃ rest, Grammar.module (tokenize (sourceLines source)) = .ok body rest := by
  simp only [parseSource, parseLines, parseTokens] at h
  cases hm : Grammar.module (tokenize (sourceLines source)) with
  | error e rest => simp [hm] at h
  | ok statements rest =>
      simp only [hm, Except.ok.injEq] at h
      exact ⟨rest, by rw [h]⟩

-- The statements of a source that parses are within the nesting limit.
theorem parseSource_within {source : Text} {body : List Stmt}
    (h : parseSource source = .ok body) :
    ∀ statement ∈ body, statement.Within Grammar.nestingLimit .module := by
  obtain ⟨rest, hmodule⟩ := module_of_parseSource h
  exact (Grammar.yields_module.ok (stream_tokenize source) trivial hmodule).1

-- The statements of a source that parses are all written by the grammar.
theorem parseSource_areWritten {source : Text} {body : List Stmt}
    (h : parseSource source = .ok body) : Stmt.AreWritten body :=
  (Stmt.areWritten_iff body).mpr fun statement hs => (parseSource_within h statement hs).isWritten

end TypeStub
