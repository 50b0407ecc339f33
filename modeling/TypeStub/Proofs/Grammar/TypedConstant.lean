import TypeStub.Proofs.Grammar.ExchangeModule
import TypeStub.Proofs.Token.Spelling

-- The spellings of a name that gets a type and no value, as the parser reads them.
namespace TypeStub

namespace Parser

-- A parser that gives a result and stops there, or fails as types nest too deep on a line.
def Settles {α : Type} (line : Nat) (p : Parser α) (tokens : List Token) (result : Option α)
    (rest : List Token) : Prop :=
  match result with
  | some a => p tokens = .ok a rest
  | none => ∃ left, p tokens = .error .nestingTooDeep left ∧
      (left.headD Token.stop).place.line = .ofNat line

section

variable {α β : Type} {line : Nat} {p : Parser α} {tokens middle rest : List Token} {a : α}
  {ρ : Int32 → Int32 → Prop} {ts us : List Token}

theorem Settles.after {f : α → Parser β} {result : Option β} (hp : p tokens = .ok a middle)
    (hf : Settles line (f a) middle result rest) : Settles line (p >>= f) tokens result rest := by
  cases result with
  | none =>
      obtain ⟨left, herror, hline⟩ := hf
      exact ⟨left, (bind_of_ok hp).trans herror, hline⟩
  | some b => exact (bind_of_ok hp).trans hf

theorem Settles.bind {f : α → Parser β} {g : α → β} {result : Option α}
    (hp : Settles line p tokens result middle) (hf : ∀ a ∈ result, f a middle = .ok (g a) rest) :
    Settles line (p >>= f) tokens (result.map g) rest := by
  cases result with
  | none =>
      obtain ⟨left, herror, hline⟩ := hp
      exact ⟨left, by simp only [Bind.bind, EStateM.bind, herror], hline⟩
  | some a => exact (bind_of_ok hp).trans (hf a rfl)

end

end Parser

namespace Grammar

open TypeStub.Parser

section

variable {budget depth line : Nat} {span rest others : List Token} {e : Expr}

-- The end of a line.
def EndsLine (tail : List Token) : Prop := ∃ body last, tail = body ++ [last] ∧
  (∀ t ∈ body, t.kind.isSourced = true) ∧ last.kind.isSourced = false

theorem EndsLine.head {tail : List Token} (h : EndsLine tail) (more : List Token) :
    (tail ++ more).headD Token.stop = tail.headD Token.stop := by
  obtain ⟨body, last, rfl, -⟩ := h
  cases body <;> rfl

-- What stands around the type: after a colon, with or without a placeholder value, or in a comment
-- after the value, on its line or on the next.
inductive Around : List Token → List Token → Prop
  | hint {colon last : Token} : colon.kind = .colon → last.kind = .newline → Around [colon] [last]
  | placeholder {colon equal value last : Token} : colon.kind = .colon → equal.kind = .equal →
      value.kind = .ellipsis → last.kind = .newline → Around [colon] [equal, value, last]
  | comment {equal value comment last : Token} : equal.kind = .equal → value.kind = .ellipsis →
      comment.kind = .typeComment → last.kind = .newline → Around [equal, value, comment] [last]
  | commentBelow {equal value newline comment last : Token} : equal.kind = .equal →
      value.kind = .ellipsis → newline.kind = .newline → comment.kind = .typeComment →
      last.kind = .newline → Around [equal, value, newline, comment] [last]

-- A name that gets a type and no value, with the type on a line.
def IsTyped (name : Text) (type : List Spelling) (line : Nat) (tokens : List Token) : Prop :=
  ∃ (target : Token) (opening span tail : List Token),
    tokens = target :: (opening ++ (span ++ tail)) ∧ target.kind = .ident ∧ target.text = name ∧
      Around opening tail ∧ span.map Token.spelling = type ∧ ∀ t ∈ span ++ tail, t.line = line

variable {type : Parser Expr} {result : Option Expr} {more : List Token} {scope : Scope}

end

end Grammar

end TypeStub
