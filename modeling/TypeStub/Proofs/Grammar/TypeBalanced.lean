import TypeStub.Proofs.Grammar.TypeGrammar
import TypeStub.Proofs.Token.Spelling

-- A type closes the brackets that it opens.
namespace TypeStub.Grammar

section

variable {α : Type} {R : List Token → α → Prop} {T : List Token → Expr → Prop}
  {separator : TokenKind} {span more : List Token} {t : Token}

-- Kinds that open and close nothing.
def IsPlain (kind : TokenKind) : Prop := ∀ depth, depthAfter kind depth = depth

theorem balanced_cons (ht : IsPlain t.kind) (hs : Balanced (span.map Token.spelling)) :
    Balanced ((t :: span).map Token.spelling) := .cons ht hs

theorem balanced_one (ht : IsPlain t.kind) : Balanced ([t].map Token.spelling) :=
  balanced_cons ht .nil

theorem MaybeComma.balanced (h : MaybeComma span) : Balanced (span.map Token.spelling) := by
  obtain rfl | ⟨t, ht, rfl⟩ := h
  · exact .nil
  · exact balanced_one fun _ => by rw [ht]; rfl

theorem IsFieldName.plain {text : Text} (h : IsFieldName t text) : IsPlain t.kind := by
  intro depth
  obtain ⟨ht, -⟩ | ⟨ht, -⟩ := h
  · rw [ht]
    rfl
  · rw [ht]
    rfl

end

end TypeStub.Grammar
