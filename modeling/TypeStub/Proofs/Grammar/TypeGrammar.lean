import TypeStub.Grammar.TypeExpr

-- The grammar of types, as relations between a span of tokens and what it stands for.
namespace TypeStub.Grammar

section

variable {α : Type}

-- One or more items, with a separator before each but the first.
inductive Sequenced (separator : TokenKind) (R : List Token → α → Prop) :
    List Token → List α → Prop
  | one {span : List Token} {a : α} : R span a → Sequenced separator R span [a]
  | more {span after : List Token} {t : Token} {a : α} {as : List α} : R span a →
      t.kind = separator → Sequenced separator R after as →
      Sequenced separator R (span ++ t :: after) (a :: as)

-- At most one comma.
def MaybeComma (span : List Token) : Prop := span = [] ∨ ∃ t : Token, t.kind = .comma ∧ span = [t]

-- Items with commas between them, and maybe one at the end.
def Listed (R : List Token → α → Prop) (span : List Token) (as : List α) : Prop :=
  ∃ body tail, span = body ++ tail ∧ Sequenced .comma R body as ∧ MaybeComma tail

def ListedOrNone (R : List Token → α → Prop) (span : List Token) (as : List α) : Prop :=
  span = [] ∧ as = [] ∨ Listed R span as

-- A span with a token of a kind after it.
def Closed (close : TokenKind) (R : List Token → α → Prop) (span : List Token) (a : α) : Prop :=
  ∃ (body : List Token) (t : Token), span = body ++ [t] ∧ R body a ∧ t.kind = close

end

-- NAME
def IsName (span : List Token) (text : Text) : Prop :=
  ∃ t : Token, t.kind = .ident ∧ span = [t] ∧ text = t.text

-- NAME {'.' NAME}
def IsDotted (span : List Token) (text : Text) : Prop :=
  ∃ names, Sequenced .dot IsName span names ∧ text = Text.joinWith "." names

-- NAME | STRING, for the text without the quotes
def IsFieldName (t : Token) (text : Text) : Prop :=
  t.kind = .ident ∧ text = t.text ∨ t.kind = .string ∧ text = unquote t.text

-- '(' field name ',' type [','] ')'
def IsField (T : List Token → Expr → Prop) (span : List Token) (field : Text × Expr) : Prop :=
  ∃ (left name comma right : Token) (type tail : List Token), left.kind = .leftParen ∧
    IsFieldName name field.1 ∧ comma.kind = .comma ∧ T type field.2 ∧ MaybeComma tail ∧
    right.kind = .rightParen ∧ span = left :: name :: comma :: type ++ tail ++ [right]

-- A type that is no alternative of several, with the types that may stand inside it.
inductive IsAtom (T : List Token → Expr → Prop) : List Token → Expr → Prop
  | question {t : Token} : t.kind = .question → IsAtom T [t] .question
  | ellipsis {t : Token} : t.kind = .ellipsis → IsAtom T [t] .ellipsis
  -- '(' type ')'
  | parenthesized {left right : Token} {type : List Token} {e : Expr} : left.kind = .leftParen →
      T type e → right.kind = .rightParen → IsAtom T (left :: type ++ [right]) e
  -- '[' ']'
  | emptyList {left right : Token} : left.kind = .leftBracket → right.kind = .rightBracket →
      IsAtom T [left, right] (.list [])
  -- '[' types ']'
  | list {left right : Token} {types : List Token} {es : List Expr} : left.kind = .leftBracket →
      Listed T types es → right.kind = .rightBracket →
      IsAtom T (left :: types ++ [right]) (.list es)
  -- dotted
  | name {span : List Token} {text : Text} : IsDotted span text → IsAtom T span (.name text)
  -- dotted '[' types ']'
  | subscript {name types : List Token} {left right : Token} {text : Text} {es : List Expr} :
      IsDotted name text → left.kind = .leftBracket → Listed T types es →
      right.kind = .rightBracket →
      IsAtom T (name ++ left :: types ++ [right]) (.subscript (.name text) es)
  -- NamedTuple '(' field name ',' '[' [field {',' field} [',']] ']' [','] ')'
  | record {word left name comma bracket closing right : Token} {fields tail : List Token}
      {text : Text} {es : List (Text × Expr)} : word.kind = .ident → word.text = "NamedTuple" →
      left.kind = .leftParen → IsFieldName name text → comma.kind = .comma →
      bracket.kind = .leftBracket → ListedOrNone (IsField T) fields es →
      closing.kind = .rightBracket → MaybeComma tail → right.kind = .rightParen →
      IsAtom T (word :: left :: name :: comma :: bracket :: fields ++ closing :: tail ++ [right])
        (.record text es)

-- atom {'or' atom}, for derivations in which at most so many types are nested in one another, the
-- whole included. A single atom stands for itself.
def IsType : Nat → List Token → Expr → Prop
  | 0, _, _ => False
  | depth + 1, span, e => IsAtom (IsType depth) span e ∨
      ∃ operands, 2 ≤ operands.length ∧
        Sequenced .kwOr (IsAtom (IsType depth)) span operands ∧ e = .or operands

section

variable {α : Type} {R : List Token → α → Prop} {T : List Token → Expr → Prop}
  {separator : TokenKind} {span : List Token}

theorem Sequenced.ne_nil {as : List α} (h : Sequenced separator R span as) : as ≠ [] := by
  cases h <;> exact List.cons_ne_nil _ _

-- The spans of a relation begin with a token of certain kinds.
def Begins (R : List Token → α → Prop) (P : TokenKind → Prop) : Prop :=
  ∀ ⦃span a⦄, R span a → ∃ t more, span = t :: more ∧ P t.kind

theorem Sequenced.begins {P : TokenKind → Prop} (h : Begins R P) :
    Begins (Sequenced separator R) P := by
  intro span as hs
  cases hs with
  | one hr => exact h hr
  | more hr =>
      obtain ⟨t, more, rfl, ht⟩ := h hr
      exact ⟨t, _, rfl, ht⟩

theorem Listed.begins {P : TokenKind → Prop} (h : Begins R P) : Begins (Listed R) P := by
  rintro _ as ⟨body, tail, rfl, hbody, -⟩
  obtain ⟨t, more, rfl, ht⟩ := Sequenced.begins h hbody
  exact ⟨t, _, rfl, ht⟩

theorem begins_isName : Begins IsName (· = .ident) := by
  rintro _ _ ⟨t, ht, rfl, -⟩
  exact ⟨t, [], rfl, ht⟩

theorem begins_isDotted : Begins IsDotted (· = .ident) := by
  rintro _ _ ⟨names, hnames, -⟩
  exact Sequenced.begins begins_isName hnames

theorem begins_isField : Begins (IsField T) (· = .leftParen) := by
  rintro _ _ ⟨left, _, _, _, _, _, hleft, -, -, -, -, -, rfl⟩
  exact ⟨left, _, rfl, hleft⟩

-- The kinds of token with which a type may start.
def StartsType (kind : TokenKind) : Prop :=
  kind ∈ [.question, .ellipsis, .leftParen, .leftBracket, .ident]

theorem StartsType.ne_close {kind : TokenKind} (h : StartsType kind) : kind ≠ .rightBracket := by
  rintro rfl
  simp [StartsType] at h

theorem begins_isAtom : Begins (IsAtom T) StartsType := by
  intro span e h
  have hstart : ∀ {t : Token} {more : List Token} {kind : TokenKind}, t.kind = kind →
      StartsType kind → ∃ t' more', t :: more = t' :: more' ∧ StartsType t'.kind :=
    fun ht hs => ⟨_, _, rfl, ht ▸ hs⟩
  cases h with
  | question ht => exact hstart ht (by simp [StartsType])
  | ellipsis ht => exact hstart ht (by simp [StartsType])
  | parenthesized ht => exact hstart ht (by simp [StartsType])
  | emptyList ht => exact hstart ht (by simp [StartsType])
  | list ht => exact hstart ht (by simp [StartsType])
  | name hname =>
      obtain ⟨t, more, rfl, ht⟩ := begins_isDotted hname
      exact hstart ht (by simp [StartsType])
  | subscript hname =>
      obtain ⟨t, more, rfl, ht⟩ := begins_isDotted hname
      exact hstart ht (by simp [StartsType])
  | record ht => exact hstart ht (by simp [StartsType])

theorem begins_isType (depth : Nat) : Begins (IsType depth) StartsType := by
  cases depth with
  | zero => exact fun _ _ h => h.elim
  | succ depth =>
      rintro _ _ (hatom | ⟨operands, -, hoperands, -⟩)
      · exact begins_isAtom hatom
      · exact Sequenced.begins begins_isAtom hoperands

-- The spans of a relation stay within the tokens before the end of file.
def Bounded (R : List Token → α → Prop) : Prop :=
  ∀ ⦃span a⦄, R span a → ∀ t ∈ span, t.kind ≠ .endOfFile

theorem MaybeComma.bounded (h : MaybeComma span) : ∀ t ∈ span, t.kind ≠ .endOfFile := by
  obtain rfl | ⟨t, ht, rfl⟩ := h
  · simp
  · simp [ht]

theorem Sequenced.bounded (h : Bounded R) (hs : separator ≠ .endOfFile) :
    Bounded (Sequenced separator R) := by
  intro span as hspan
  induction hspan with
  | one hr => exact h hr
  | more hr ht _ ih =>
      intro t hm
      obtain hm | hm := List.mem_append.mp hm
      · exact h hr t hm
      · obtain rfl | hm := List.mem_cons.mp hm
        · exact ht ▸ hs
        · exact ih t hm

theorem Listed.bounded (h : Bounded R) : Bounded (Listed R) := by
  rintro _ as ⟨body, tail, rfl, hbody, htail⟩ t hm
  obtain hm | hm := List.mem_append.mp hm
  · exact Sequenced.bounded h (by simp) hbody t hm
  · exact htail.bounded t hm

theorem bounded_isDotted : Bounded IsDotted := by
  have hname : Bounded IsName := by
    rintro _ _ ⟨t, ht, rfl, -⟩
    simp [ht]
  rintro _ _ ⟨names, hnames, -⟩
  exact Sequenced.bounded hname (by simp) hnames

theorem IsFieldName.bounded {t : Token} {text : Text} (h : IsFieldName t text) :
    t.kind ≠ .endOfFile := by
  obtain ⟨ht, -⟩ | ⟨ht, -⟩ := h
  · simp [ht]
  · simp [ht]

theorem bounded_isField (h : Bounded T) : Bounded (IsField T) := by
  rintro _ _ ⟨left, name, comma, right, type, tail, hleft, hname, hcomma, htype, htail, hright, rfl⟩
  simp only [List.cons_append, List.forall_mem_cons, List.forall_mem_append]
  exact ⟨by simp [hleft], hname.bounded, by simp [hcomma], ⟨h htype, htail.bounded⟩,
    by simp [hright]⟩

theorem bounded_isAtom (h : Bounded T) : Bounded (IsAtom T) := by
  intro span e hspan
  cases hspan with
  | question ht => simp [ht]
  | ellipsis ht => simp [ht]
  | parenthesized hleft htype hright =>
      simp only [List.cons_append, List.forall_mem_cons, List.forall_mem_append]
      exact ⟨by simp [hleft], h htype, by simp [hright]⟩
  | emptyList hleft hright => simp [hleft, hright]
  | list hleft htypes hright =>
      simp only [List.cons_append, List.forall_mem_cons, List.forall_mem_append]
      exact ⟨by simp [hleft], Listed.bounded h htypes, by simp [hright]⟩
  | name hname => exact bounded_isDotted hname
  | subscript hname hleft htypes hright =>
      simp only [List.forall_mem_cons, List.forall_mem_append]
      exact ⟨⟨bounded_isDotted hname, by simp [hleft], Listed.bounded h htypes⟩, by simp [hright]⟩
  | @record _ _ _ _ _ _ _ fields _ _ es hword _ hleft hname hcomma hbracket hfields hclosing htail
      hright =>
      have hinner : ∀ t ∈ fields, t.kind ≠ .endOfFile := by
        obtain ⟨rfl, -⟩ | hlisted := hfields
        · simp
        · exact Listed.bounded (bounded_isField h) hlisted
      simp only [List.cons_append, List.forall_mem_cons, List.forall_mem_append]
      exact ⟨by simp [hword], by simp [hleft], hname.bounded, by simp [hcomma], by simp [hbracket],
        ⟨hinner, by simp [hclosing], htail.bounded⟩, by simp [hright]⟩

theorem bounded_isType (depth : Nat) : Bounded (IsType depth) := by
  induction depth with
  | zero => exact fun _ _ h => h.elim
  | succ depth ih =>
      rintro _ _ (hatom | ⟨operands, -, hoperands, -⟩)
      · exact bounded_isAtom ih hatom
      · exact Sequenced.bounded (bounded_isAtom ih) (by simp) hoperands

end

end TypeStub.Grammar
