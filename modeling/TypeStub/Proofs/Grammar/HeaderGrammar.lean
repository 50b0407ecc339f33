import TypeStub.Grammar.Definition
import TypeStub.Proofs.Grammar.TypeSound

-- The grammar of a definition's header and of the bodies that add nothing to it.
namespace TypeStub.Grammar

open TypeStub.Parser

-- A token of a kind with a span after it, or nothing.
def Marked {α : Type} (kind : TokenKind) (R : List Token → α → Prop) (span : List Token)
    (a : Option α) : Prop :=
  span = [] ∧ a = none ∨ ∃ (t : Token) (rest : List Token) (b : α), t.kind = kind ∧ R rest b ∧
    span = t :: rest ∧ a = some b

-- NUMBER, with its value and the value after a minus sign
inductive IsNumeral : Token → Expr → Expr → Prop
  | int {t : Token} {value : Int} : t.kind = .int → intLiteral? t.text = some value →
      IsNumeral t (.int value) (.int (-value))
  | float {t : Token} {value : Binary64} : t.kind = .float → floatLiteral? t.text = some value →
      IsNumeral t (.float value) (.float value.neg)

-- ['-'] NUMBER
inductive IsSigned : List Token → Expr → Prop
  | plain {t : Token} {value opposite : Expr} : IsNumeral t value opposite → IsSigned [t] value
  | negative {minus t : Token} {value opposite : Expr} : minus.kind = .minus →
      IsNumeral t value opposite → IsSigned [minus, t] opposite

-- The value of a parameter that has a default.
inductive IsDefaultValue : List Token → Expr → Prop
  | number {span : List Token} {e : Expr} : IsSigned span e → IsDefaultValue span e
  | bool {t : Token} : t.kind = .bool → IsDefaultValue [t] (truth t)
  | ellipsis {t : Token} : t.kind = .ellipsis → IsDefaultValue [t] .ellipsis
  | string {t : Token} : t.kind = .string → IsDefaultValue [t] (.string (unquote t.text))
  | name {span : List Token} {text : Text} : IsDotted span text → IsDefaultValue span (.name text)

inductive IsParam (T : List Token → Expr → Prop) : List Token → Param → Prop
  | ellipsis {t : Token} : t.kind = .ellipsis → IsParam T [t] .ellipsis
  -- '**' NAME [':' type]
  | doubleStar {sign name : Token} {span : List Token} {hint : Option Expr} :
      sign.kind = .doubleStar → name.kind = .ident → Marked .colon T span hint →
      IsParam T (sign :: name :: span) (.doubleStar name.text hint)
  -- '*' NAME [':' type]
  | star {sign name : Token} {span : List Token} {hint : Option Expr} :
      sign.kind = .star → name.kind = .ident → Marked .colon T span hint →
      IsParam T (sign :: name :: span) (.star name.text hint)
  | bareStar {sign : Token} : sign.kind = .star → IsParam T [sign] .bareStar
  -- NAME [':' type] ['=' value]
  | ordinary {name : Token} {span value : List Token} {hint default : Option Expr} :
      name.kind = .ident → Marked .colon T span hint → Marked .equal IsDefaultValue value default →
      IsParam T (name :: span ++ value) (.ordinary name.text hint default)

-- What a definition says before its body.
structure Header where
  place : Place
  decorators : List Text
  name : Text
  params : List Param
  returns : Option Expr

-- The definition of which this is all.
def Header.definition (h : Header) : Stmt :=
  .definition h.place ⟨h.name, h.decorators, .declared h.params h.returns [] []⟩

-- {'@' dotted NEWLINE}
def AreDecorators : List Token → List Text → Prop :=
  Repeated (IsToken .atSign) (Closed .newline IsDotted) (· = [])

-- decorators 'def' NAME '(' [param {',' param} [',']] ')' ['->' type]
def IsHeader (T : List Token → Expr → Prop) (span : List Token) (h : Header) : Prop :=
  ∃ (marks params returns : List Token) (word name left : Token), AreDecorators marks h.decorators ∧
    word.kind = .kwDef ∧ h.place = word.place ∧ name.kind = .ident ∧
    h.name = name.text ∧ left.kind = .leftParen ∧
    Closed .rightParen (ListedOrNone (IsParam T)) params h.params ∧
    Marked .arrow T returns h.returns ∧ span = marks ++ word :: name :: left :: (params ++ returns)

-- '# type:' 'ignore' ['[' {NAME | ',' | '-'} ']']
inductive IsIgnore : List Token → Prop
  | plain {comment word : Token} : comment.kind = .typeComment → word.kind = .ident →
      word.text = "ignore" → IsIgnore [comment, word]
  | codes {comment word left right : Token} {codes : List Token} : comment.kind = .typeComment →
      word.kind = .ident → word.text = "ignore" → left.kind = .leftBracket →
      (∀ t ∈ codes, t.kind = .ident ∨ t.kind = .comma ∨ t.kind = .minus) →
      right.kind = .rightBracket → IsIgnore (comment :: word :: left :: codes ++ [right])

def MaybeIgnore (span : List Token) : Prop := span = [] ∨ IsIgnore span

-- ('...' | 'pass' | STRING) [ignore] NEWLINE
def IsWordLine (span : List Token) : Prop :=
  ∃ (t newline : Token) (ignore : List Token),
    (t.kind = .ellipsis ∨ t.kind = .kwPass ∨ t.kind = .string) ∧ MaybeIgnore ignore ∧
      newline.kind = .newline ∧ span = t :: (ignore ++ [newline])

-- ignore NEWLINE
def IsIgnoreLine (span : List Token) : Prop :=
  ∃ (ignore : List Token) (newline : Token), IsIgnore ignore ∧ newline.kind = .newline ∧
    span = ignore ++ [newline]

-- A line that adds nothing to a body.
def IsFiller (span : List Token) : Prop := IsWordLine span ∨ IsIgnoreLine span

-- A body that adds nothing to the header. An ignore comment right after the colon belongs to the
-- header, so that another line has to follow it.
inductive IsEmptyBody : List Token → Prop
  -- NEWLINE
  | none {newline : Token} : newline.kind = .newline → IsEmptyBody [newline]
  -- ':' word line
  | line {colon : Token} {filler : List Token} : colon.kind = .colon → IsWordLine filler →
      IsEmptyBody (colon :: filler)
  -- ':' ignore filler
  | ignoredLine {colon : Token} {ignore filler : List Token} : colon.kind = .colon →
      IsIgnore ignore → IsFiller filler → IsEmptyBody (colon :: (ignore ++ filler))
  -- ':' [ignore] NEWLINE INDENT {filler} DEDENT
  | block {colon newline indent dedent : Token} {ignore : List Token}
      {fillers : List (List Token)} : colon.kind = .colon → MaybeIgnore ignore →
      newline.kind = .newline → indent.kind = .indent →
      (∀ filler ∈ fillers, IsFiller filler) → dedent.kind = .dedent →
      IsEmptyBody (colon :: (ignore ++ newline :: indent :: (fillers.flatten ++ [dedent])))

section

variable {α : Type} {kind : TokenKind} {R : List Token → α → Prop} {T : List Token → Expr → Prop}

theorem Marked.none : Marked kind R [] Option.none := .inl ⟨rfl, rfl⟩

theorem Marked.some {t : Token} {span : List Token} {a : α} (ht : t.kind = kind) (h : R span a) :
    Marked kind R (t :: span) (Option.some a) := .inr ⟨t, span, a, ht, h, rfl, rfl⟩

-- What comes after a part that may be missing is looked at in its place.
theorem Marked.head {P : TokenKind → Prop} {span rest : List Token} {a : Option α}
    (h : Marked kind R span a) (hkind : P kind) (hrest : P (rest.headD Token.stop).kind) :
    P ((span ++ rest).headD Token.stop).kind := by
  obtain ⟨rfl, rfl⟩ | ⟨t, after, b, rfl, -, rfl, rfl⟩ := h
  · exact hrest
  · exact hkind

theorem begins_isParam : Begins (IsParam T) (· ≠ .rightParen) := by
  intro span p h
  cases h with
  | ellipsis ht => exact ⟨_, _, rfl, by simp [ht]⟩
  | doubleStar ht => exact ⟨_, _, rfl, by simp [ht]⟩
  | star ht => exact ⟨_, _, rfl, by simp [ht]⟩
  | bareStar ht => exact ⟨_, _, rfl, by simp [ht]⟩
  | ordinary ht => exact ⟨_, _, rfl, by simp [ht]⟩

theorem IsIgnore.begins {span : List Token} (h : IsIgnore span) :
    ∃ t more, span = t :: more ∧ t.kind = .typeComment := by
  cases h with
  | plain ht => exact ⟨_, _, rfl, ht⟩
  | codes ht => exact ⟨_, _, rfl, ht⟩

theorem IsWordLine.begins {span : List Token} (h : IsWordLine span) : ∃ t more,
    span = t :: more ∧ (t.kind = .ellipsis ∨ t.kind = .kwPass ∨ t.kind = .string) := by
  obtain ⟨t, newline, ignore, ht, -, -, rfl⟩ := h
  exact ⟨t, _, rfl, ht⟩

theorem IsFiller.begins {span : List Token} (h : IsFiller span) : ∃ t more, span = t :: more ∧
    t.kind ∈ [.ellipsis, .kwPass, .string, .typeComment] := by
  obtain hword | ⟨ignore, newline, hignore, -, rfl⟩ := h
  · obtain ⟨t, more, rfl, ht⟩ := hword.begins
    exact ⟨t, more, rfl, by obtain ht | ht | ht := ht <;> simp [ht]⟩
  · obtain ⟨t, more, rfl, ht⟩ := hignore.begins
    exact ⟨t, _, rfl, by simp [ht]⟩

theorem IsEmptyBody.begins {span : List Token} (h : IsEmptyBody span) :
    ∃ t more, span = t :: more ∧ (t.kind = .newline ∨ t.kind = .colon) := by
  cases h with
  | none ht => exact ⟨_, _, rfl, .inl ht⟩
  | line ht => exact ⟨_, _, rfl, .inr ht⟩
  | ignoredLine ht => exact ⟨_, _, rfl, .inr ht⟩
  | block ht => exact ⟨_, _, rfl, .inr ht⟩

end

end TypeStub.Grammar
