import TypeStub.Proofs.Grammar.Within
import TypeStub.Proofs.Grammar.Yields

-- What each parser of the grammar makes, and where it stops, in the grammar's own order: first the
-- parsers around given ones, and at the end one induction on the budget.
namespace TypeStub.Grammar

open TypeStub.Parser

variable {pre : List Token → Prop} {T C V : Expr → Prop} {type condition : Parser Expr}

theorem consumes_signedNumber : Consumes pre signedNumber Expr.IsNumber := by
  refine .after (yields_accept _ rfl) fun negative _ => .peek fun token _ => ?_
  split
  · rename_i hk
    split
    · exact .bind (consumes_next (.of_kind hk rfl)) fun _ _ => .pure (.int _)
    · exact consumes_unexpected _
  · rename_i hk
    split
    · exact .bind (consumes_next (.of_kind hk rfl)) fun _ _ => .pure (.float _)
    · exact consumes_unexpected _
  · exact consumes_unexpected _

theorem yields_signedNumber : Yields pre signedNumber Expr.IsNumber := consumes_signedNumber.yields

theorem yields_fieldName : Yields pre fieldName fun _ => True := by
  refine .peek fun token _ => ?_
  split
  · exact .bind (yields_next (.of_kind ‹_› rfl)) fun _ _ => .pure trivial
  · exact .bind (yields_next (.of_kind ‹_› rfl)) fun _ _ => .pure trivial
  · exact yields_unexpected _

theorem consumes_recordField (ht : ∀ pre, Yields pre type T) :
    Consumes pre (recordField type) fun field => T field.2 := by
  refine .bind (consumes_expect _ rfl) fun _ _ => .bind yields_fieldName fun name _ => ?_
  refine .bind (yields_expect _ rfl) fun _ _ => .bind (ht _) fun fieldType hf => ?_
  exact .bind (yields_accept _ rfl) fun _ _ => .bind (yields_expect _ rfl) fun _ _ => .pure hf

theorem consumes_record (ht : ∀ pre, Yields pre type T) {word paren : Token}
    (hw : word.Takeable) (hp : paren.Takeable) :
    Consumes (fun tokens => (pre tokens ∧ Ahead word tokens) ∧ AheadNext paren tokens)
      (record type) (Expr.TypeNode T) := by
  refine .nextTwo hw hp ?_
  refine .bind yields_fieldName fun name _ => .bind (yields_expect _ rfl) fun _ _ => ?_
  refine .bind (yields_expect _ rfl) fun _ _ => ?_
  refine .bind (yields_itemsOrNone _ _ rfl fun _ => (consumes_recordField ht).yields) fun fields hf => ?_
  refine .bind (yields_accept _ rfl) fun _ _ => ?_
  exact .bind (yields_expect _ rfl) fun _ _ => .pure (.record hf)

theorem yields_typeItems (ht : ∀ pre, Yields pre type T) : Yields pre (typeItems type) (Items T) :=
  yields_items _ _ rfl ht

theorem consumes_typeAtom (ht : ∀ pre, Yields pre type T) :
    Consumes pre (typeAtom type) (Expr.TypeNode T) := by
  refine .peek fun token _ => ?_
  split
  · exact .bind (consumes_next (.of_kind ‹_› rfl)) fun _ _ => .pure .question
  · exact .bind (consumes_next (.of_kind ‹_› rfl)) fun _ _ => .pure .ellipsis
  · refine .bind (consumes_next (.of_kind ‹_› rfl)) fun _ _ => .bind (ht _) fun inner hi => ?_
    exact .bind (yields_expect _ rfl) fun _ _ => .pure (.inner hi)
  · refine .bind (consumes_next (.of_kind ‹_› rfl)) fun _ _ => ?_
    refine .bind (yields_accept _ rfl) fun _ _ => ?_
    refine .ite (fun _ => .pure (.list (by simp))) fun _ => ?_
    exact .bind (yields_typeItems ht) fun elements he => .pure (.list he.2)
  · rename_i hk
    refine .peekNext fun paren => .ite (fun hp => ?_) fun _ => ?_
    · exact consumes_record ht (.of_kind hk rfl) (.of_kind hp.2 rfl)
    refine .bind consumes_dottedName fun name hn => .bind (yields_accept _ rfl) fun _ _ => ?_
    refine .ite (fun _ => ?_) fun _ => .pure (.name hn)
    exact .bind (yields_typeItems ht) fun elements he => .pure (.subscript hn he.1 he.2)
  · exact consumes_unexpected _

theorem alternatives_of_items {A : Expr → Prop} {operands : List Expr} (h : Items A operands) :
    Expr.Alternatives A (alternatives operands) := by
  obtain ⟨hne, hall⟩ := h
  match operands with
  | [] => exact absurd rfl hne
  | [single] => exact .single (hall single (by simp))
  | a :: b :: rest => exact .or (by simp) hall

theorem consumes_typeExpr (budget : Nat) (pre : List Token → Prop) :
    Consumes pre (typeExpr budget) (Expr.TypeWithin budget) := by
  induction budget generalizing pre with
  | zero => exact consumes_tooDeep
  | succ budget ih =>
      refine .bind (.separated rfl fun _ => consumes_typeAtom fun pre => (ih pre).yields) ?_
      exact fun operands h => .pure (alternatives_of_items h)

theorem yields_typeExpr (budget : Nat) (pre : List Token → Prop) :
    Yields pre (typeExpr budget) (Expr.TypeWithin budget) := (consumes_typeExpr budget pre).yields

theorem yields_defaultValue : Yields pre defaultValue Expr.IsDefault := by
  refine .peek fun token _ => ?_
  split
  · exact yields_signedNumber.mono fun _ => Expr.IsNumber.isDefault
  · exact yields_signedNumber.mono fun _ => Expr.IsNumber.isDefault
  · exact yields_signedNumber.mono fun _ => Expr.IsNumber.isDefault
  · exact .bind (yields_next (.of_kind ‹_› rfl)) fun _ _ => .pure trivial
  · exact .bind (yields_next (.of_kind ‹_› rfl)) fun _ _ => .pure trivial
  · exact .bind (yields_next (.of_kind ‹_› rfl)) fun _ _ => .pure trivial
  · exact .bind yields_dottedName fun _ hn => .pure hn
  · exact yields_unexpected _

theorem yields_hint (ht : ∀ pre, Yields pre type T) :
    Yields pre (hint? type) fun hint => ∀ t ∈ hint, T t := by
  refine .bind (yields_accept _ rfl) fun _ _ => .ite (fun _ => ?_) fun _ => .pure (by simp)
  exact .bind (ht _) fun t h => .pure (by simpa using h)

theorem consumes_param (ht : ∀ pre, Yields pre type T) :
    Consumes pre (param type) (Param.Over T) := by
  refine .accept rfl (.pure trivial) (.accept rfl ?_ (.accept rfl ?_ ?_))
  · refine .bind (yields_expect _ rfl) fun name hn => .bind (yields_hint ht) fun hint hh => ?_
    exact .pure ⟨hn.1 hn.2, hh⟩
  · refine .peek fun token _ => .ite (fun hk => ?_) fun _ => .pure trivial
    refine .bind (yields_next (.of_kind hk rfl)) fun name hn => ?_
    refine .bind (yields_hint ht) fun hint hh => ?_
    exact .pure ⟨hn.2 (hn.1 ▸ hk), hh⟩
  · refine .bind (consumes_expect _ rfl) fun name hn => .bind (yields_hint ht) fun hint hh => ?_
    refine .bind (yields_accept _ rfl) fun _ _ => .ite (fun _ => ?_) fun _ => ?_
    · exact .bind yields_defaultValue fun _ hd => .pure ⟨hn.1 hn.2, hh, by simpa using hd⟩
    · exact .pure ⟨hn.1 hn.2, hh, by simp⟩

theorem yields_skipCodes : Yields pre skipCodes fun _ => True := by
  intro tokens _ _
  refine ⟨trivial, _, (List.takeWhile_append_dropWhile ..).symm, fun t ht => ?_⟩
  have hk := List.all_eq_true.mp List.all_takeWhile t ht
  simp only [Bool.or_eq_true, beq_iff_eq] at hk
  obtain (hk | hk) | hk := hk <;> exact .of_kind hk rfl

theorem consumes_ignoreComment : Consumes pre ignoreComment fun _ => True := by
  refine .bind (consumes_expect _ rfl) fun _ _ => ?_
  refine .peek fun word _ => .ite (fun hk => ?_) fun _ => ?_
  · refine .bind (yields_next (.of_kind hk.1 rfl)) fun _ _ => ?_
    refine .bind (yields_accept _ rfl) fun _ _ => ?_
    refine .ite (fun _ => ?_) fun _ => .pure trivial
    exact .bind yields_skipCodes fun _ _ => .bind (yields_expect _ rfl) fun _ _ => .pure trivial
  · exact yields_unexpected_bind _

theorem yields_ignoreCommentIfAny : Yields pre ignoreCommentIfAny fun _ => True := by
  refine .peek fun token _ => .ite (fun _ => consumes_ignoreComment.yields) fun _ => ?_
  exact .pure trivial

-- What a line of a body may raise and mutate.
def BodyLine.Over (T : Expr → Prop) (line : BodyLine) : Prop :=
  (∀ type ∈ line.raised?, T type) ∧ ∀ mutator ∈ line.mutated?, T mutator.2

-- A line of a body takes its line break at least.
theorem consumes_bodyLine (ht : ∀ pre, Yields pre type T) :
    Consumes pre (bodyLine type) (BodyLine.Over T) := by
  have hend : ∀ line, BodyLine.Over T line → Consumes Anywhere
      (do ignoreCommentIfAny; let _ ← expect .newline; return line) (BodyLine.Over T) :=
    fun line hl => .after yields_ignoreCommentIfAny fun _ _ =>
      .bind (consumes_expect _ rfl) fun _ _ => .pure hl
  have hnothing : BodyLine.Over T .nothing := by
    simp [BodyLine.Over, BodyLine.raised?, BodyLine.mutated?]
  refine .peek fun token _ => ?_
  dsimp only
  split
  · exact .after (yields_next (.of_kind ‹_› rfl)) fun _ _ => hend .nothing hnothing
  · exact .after (yields_next (.of_kind ‹_› rfl)) fun _ _ => hend .nothing hnothing
  · exact .after (yields_next (.of_kind ‹_› rfl)) fun _ _ => hend .nothing hnothing
  · exact .after (.pure hnothing) hend
  · refine .after (yields_next (.of_kind ‹_› rfl)) fun _ _ => .after (ht _) fun raised hr => ?_
    have hraises : BodyLine.Over T (.raises raised) := by
      simp [BodyLine.Over, BodyLine.raised?, BodyLine.mutated?, hr]
    refine .after (yields_accept _ rfl) fun _ _ => .ite (fun _ => ?_) fun _ => hend _ hraises
    exact .after (yields_expect _ rfl) fun _ _ => hend _ hraises
  · refine .after (yields_next (.of_kind ‹_› rfl)) fun name _ => ?_
    refine .after (yields_expect _ rfl) fun _ _ => .after (ht _) fun t h => ?_
    exact hend (.mutates name.text t) (by
      simp [BodyLine.Over, BodyLine.raised?, BodyLine.mutated?, h])
  · exact consumes_unexpected_bind _

theorem yields_bodyLines (ht : ∀ pre, Yields pre type T) :
    Yields pre (bodyLines type) fun lines => ∀ line ∈ lines, line.Over T := by
  refine .bind yields_ignoreCommentIfAny fun _ _ => .bind (yields_accept _ rfl) fun _ _ => ?_
  refine .ite (fun _ => ?_) fun _ => ?_
  · refine .bind (yields_expect _ rfl) fun _ _ => ?_
    exact yields_repeatUntil (yields_accept _ rfl) (consumes_bodyLine ht).yields
  · exact .bind (consumes_bodyLine ht).yields fun line hl => .pure (by simpa using hl)

theorem consumes_decorator : Consumes pre decorator DottedName :=
  .bind consumes_dottedName fun _ hn => .bind (yields_expect _ rfl) fun _ _ => .pure hn

theorem yields_returnType (ht : ∀ pre, Yields pre type T) :
    Yields pre (returnType? type) fun returns => ∀ t ∈ returns, T t := by
  refine .bind (yields_accept _ rfl) fun _ _ => .ite (fun _ => ?_) fun _ => .pure (by simp)
  exact .bind (ht _) fun t h => .pure (by simpa using h)

theorem over_declared {params : List Param} {returns : Option Expr} {lines : List BodyLine}
    (hp : ∀ param ∈ params, param.Over T) (hr : ∀ type ∈ returns, T type)
    (hl : ∀ line ∈ lines, line.Over T) :
    (DefBody.declared params returns (lines.filterMap BodyLine.raised?)
      (lines.filterMap BodyLine.mutated?)).Over T := by
  refine ⟨hp, hr, fun type hm => ?_, fun mutator hm => ?_⟩
  · obtain ⟨line, hline, ht⟩ := List.mem_filterMap.mp hm
    exact (hl line hline).1 type ht
  · obtain ⟨line, hline, ht⟩ := List.mem_filterMap.mp hm
    exact (hl line hline).2 mutator ht

theorem yields_defBody (ht : ∀ pre, Yields pre type T) :
    Yields pre (defBody type) (DefBody.Over T) := by
  refine .bind (yields_accept _ rfl) fun _ _ => .ite (fun _ => ?_) fun _ => ?_
  · exact .bind (yields_expect _ rfl) fun _ _ => .pure trivial
  refine .bind (yields_expect _ rfl) fun _ _ => ?_
  refine .bind (yields_itemsOrNone _ _ rfl fun _ => (consumes_param ht).yields) fun params hp => ?_
  refine .bind (yields_returnType ht) fun returns hr => .bind (yields_accept _ rfl) fun _ _ => ?_
  refine .ite (fun _ => ?_) fun _ => ?_
  · exact .bind (.pure (by simp)) fun lines hl => .pure (over_declared hp hr hl)
  · refine .bind (yields_expect _ rfl) fun _ _ => .bind (yields_bodyLines ht) fun lines hl => ?_
    exact .pure (over_declared hp hr hl)

-- What the walk says of a statement with given types, conditions and blocks.
variable {B : Scope → Stmt → Prop} {block : Parser (List Stmt)} {scope : Scope}

theorem consumes_definition (ht : ∀ pre, Yields pre type T) :
    Consumes pre (definition type) (Stmt.Over T C B scope) := by
  refine .after (yields_repeatUntil (.bind (yields_accept _ rfl) fun _ _ => .pure trivial)
    consumes_decorator.yields) fun decorators hd => ?_
  refine .bind (consumes_expect _ rfl) fun word _ => .bind (yields_expect _ rfl) fun name hn => ?_
  exact .bind (yields_defBody ht) fun body hb => .pure (.definition ⟨hn.1 hn.2, hd, hb⟩)

theorem yields_classArg (ht : ∀ pre, Yields pre type T) :
    Yields pre (classArg type) fun arg => T arg.value := by
  refine .peek fun word _ => .peekNext fun sign => .ite (fun hk => ?_) fun _ => ?_
  · exact .nextTwo (.of_kind hk.1 rfl) (.of_kind hk.2 rfl) (.bind (ht _) fun _ h => .pure h)
  · exact .bind (ht _) fun _ h => .pure h

theorem yields_classArgs (ht : ∀ pre, Yields pre type T) :
    Yields pre (classArgs type) fun args => ∀ arg ∈ args, T arg.value := by
  refine .bind (yields_accept _ rfl) fun _ _ => .ite (fun _ => ?_) fun _ => .pure (by simp)
  exact yields_itemsOrNone _ _ rfl fun _ => yields_classArg ht

theorem yields_classBody {P : Stmt → Prop}
    (hb : ∀ pre, Yields pre block fun body => ∀ statement ∈ body, P statement) :
    Yields pre (classBody block) fun body => ∀ statement ∈ body, P statement := by
  refine .peek fun token _ => ?_
  split
  · exact hb _
  · exact .bind (yields_next (.of_kind ‹_› rfl)) fun _ _ =>
      .bind (yields_expect _ rfl) fun _ _ => .pure (by simp)
  · exact .bind (yields_next (.of_kind ‹_› rfl)) fun _ _ =>
      .bind (yields_expect _ rfl) fun _ _ => .pure (by simp)
  · exact yields_unexpected _

theorem consumes_classDef (ht : ∀ pre, Yields pre type T)
    (hb : ∀ pre, Yields pre block fun body => ∀ statement ∈ body, B .classBody statement)
    (hs : scope = .module) {word : Token} (hw : word.Takeable) :
    Consumes (fun tokens => pre tokens ∧ Ahead word tokens) (classDef type block)
      (Stmt.Over T C B scope) := by
  refine .bind (consumes_next hw) fun _ _ => .bind (yields_expect _ rfl) fun name hn => ?_
  refine .bind (yields_classArgs ht) fun args ha => .bind (yields_expect _ rfl) fun _ _ => ?_
  exact .bind (yields_classBody hb) fun body h => .pure (.classDef hs (hn.1 hn.2) ha h)

-- A branch with such a condition and such a block.
def Branch.Over (C : Expr → Prop) (P : Stmt → Prop) (b : Branch) : Prop :=
  C b.condition ∧ ∀ statement ∈ b.body, P statement

theorem consumes_branch {P : Stmt → Prop} (hc : ∀ pre, Yields pre condition C)
    (hb : ∀ pre, Yields pre block fun body => ∀ statement ∈ body, P statement) {word : Token}
    (hw : word.Takeable) :
    Consumes (fun tokens => pre tokens ∧ Ahead word tokens) (branch condition block)
      (Branch.Over C P) := by
  refine .bind (consumes_next hw) fun _ _ => .bind (hc _) fun e he => ?_
  exact .bind (yields_expect _ rfl) fun _ _ => .bind (hb _) fun body h => .pure ⟨he, h⟩

theorem over_conditional {first : Branch} {more : List Branch} {otherwise : List Stmt}
    {isElif : Bool} (hf : first.Over C (B scope)) (hm : ∀ b ∈ more, Branch.Over C (B scope) b)
    (ho : ∀ statement ∈ otherwise, B scope statement) :
    Stmt.Over T C B scope (.conditional first.place isElif first.condition first.body
      (chain more otherwise)) := by
  induction more generalizing first isElif with
  | nil => exact .conditional hf.1 hf.2 ho
  | cons next rest ih =>
      have hrest : Stmt.Over T C B scope (.conditional next.place true next.condition next.body
          (chain rest otherwise)) := ih (hm next (by simp)) fun b hb => hm b (by simp [hb])
      exact .chained hf.1 hf.2 hrest

-- The test has seen the word that a further branch takes.
theorem yields_branches {P : Stmt → Prop} (hc : ∀ pre, Yields pre condition C)
    (hb : ∀ pre, Yields pre block fun body => ∀ statement ∈ body, P statement) :
    Yields pre (repeatUntil (do return (← peek).kind != .kwElif) (branch condition block))
      fun more => ∀ b ∈ more, Branch.Over C P b := by
  refine yields_repeatUntil_of (.peek fun _ _ => .pure trivial) (fun tokens rest h => ?_)
    (.ofKind fun word (hk : word.kind = .kwElif) =>
      (consumes_branch hc hb (.of_kind hk rfl)).yields)
  rw [peek_bind] at h
  obtain ⟨hne, rfl⟩ := (EStateM.Result.ok.injEq ..).mp h
  simpa using hne

theorem consumes_conditional (hc : ∀ pre, Yields pre condition C)
    (hb : ∀ pre, Yields pre block fun body => ∀ statement ∈ body, B scope statement)
    {word : Token} (hw : word.Takeable) :
    Consumes (fun tokens => pre tokens ∧ Ahead word tokens) (conditional condition block)
      (Stmt.Over T C B scope) := by
  refine .bind (consumes_branch hc hb hw) fun first hf => ?_
  refine .bind (yields_branches hc hb) fun more hm => ?_
  refine .bind (yields_accept _ rfl) fun _ _ => .ite (fun _ => ?_) fun _ => ?_
  · refine .bind (yields_expect _ rfl) fun _ _ => .bind (hb _) fun otherwise ho => ?_
    exact .pure (over_conditional hf hm ho)
  · exact .bind (.pure (by simp)) fun otherwise ho => .pure (over_conditional hf hm ho)

theorem yields_asName : Yields pre asName? fun name => ∀ text ∈ name, Identifier text := by
  refine .bind (yields_accept _ rfl) fun _ _ => .ite (fun _ => ?_) fun _ => .pure (by simp)
  exact .bind (yields_expect _ rfl) fun name hn => .pure (by simpa using hn.1 hn.2)

theorem consumes_importedModule :
    Consumes pre importedModule fun imported => imported.IsWritten DottedName :=
  .bind consumes_dottedName fun _ hn => .bind yields_asName fun _ ha => .pure ⟨hn, ha⟩

theorem consumes_importModules (hs : scope = .module) {word : Token} (hw : word.Takeable) :
    Consumes (fun tokens => pre tokens ∧ Ahead word tokens) importModules
      (Stmt.Over T C B scope) := by
  refine .bind (consumes_next hw) fun _ _ => ?_
  refine .bind (yields_separated _ rfl fun _ => consumes_importedModule.yields) fun modules hm => ?_
  exact .bind (yields_expect _ rfl) fun _ _ => .pure (.importModules hs hm.2)

theorem consumes_importedMember :
    Consumes pre importedMember fun imported => imported.IsWritten Identifier :=
  .bind (consumes_expect _ rfl) fun _ hn => .bind yields_asName fun _ ha => .pure ⟨hn.1 hn.2, ha⟩

theorem yields_leadingDots :
    Yields pre leadingDots fun dots => ∃ count, dots = List.replicate count '.' := by
  intro tokens _ _
  refine ⟨⟨_, List.map_const' ..⟩, tokens.takeWhile (·.kind == .dot), ?_, fun t ht => ?_⟩
  · exact (List.prefix_iff_eq_append.mp (List.takeWhile_prefix _)).symm
  · exact .of_kind (by simpa using List.all_eq_true.mp List.all_takeWhile t ht) rfl

theorem yields_sourceModule : Yields pre sourceModule SourceModule := by
  refine .bind yields_leadingDots fun dots ⟨count, hd⟩ => .peek fun _ _ => ?_
  subst hd
  refine .ite (fun _ => ?_) fun hne => .pure ?_
  · exact .bind yields_dottedName fun name hn => .pure (.named count hn)
  · cases count with
    | zero => exact absurd (.inr rfl) hne
    | succ count => exact .dots count

theorem yields_importedMembers :
    Yields pre importedMembers fun names => ∀ n ∈ names, n.IsWritten Identifier := by
  refine .bind (yields_accept _ rfl) fun _ _ => .ite (fun _ => ?_) fun _ => ?_
  · exact (yields_items _ _ rfl fun _ => consumes_importedMember.yields).mono fun _ h => h.2
  · exact (yields_separated _ rfl fun _ => consumes_importedMember.yields).mono fun _ h => h.2

theorem consumes_importFrom (hs : scope = .module) {word : Token} (hw : word.Takeable) :
    Consumes (fun tokens => pre tokens ∧ Ahead word tokens) importFrom
      (Stmt.Over T C B scope) := by
  refine .bind (consumes_next hw) fun word _ => .bind yields_sourceModule fun module hm => ?_
  have hend : ∀ statement : Stmt, Stmt.Over T C B scope statement → Yields Anywhere
      (do let _ ← expect .newline; return statement) (Stmt.Over T C B scope) :=
    fun _ h => .bind (yields_expect _ rfl) fun _ _ => .pure h
  refine .bind (yields_expect _ rfl) fun _ _ => .bind (yields_accept _ rfl) fun _ _ => ?_
  refine .ite (fun _ => ?_) fun _ => ?_
  · exact .bind (.pure (.importAll hs hm)) hend
  · exact .bind (.map yields_importedMembers fun names hn => .importFrom hs hm hn) hend

theorem yields_constraintsEnd : Yields pre constraintsEnd fun _ => True := by
  intro tokens hs _
  obtain ⟨t, more, rfl, -⟩ := hs.cons_of
  by_cases hk : t.kind = .comma
  · simp only [constraintsEnd, hk, if_true]
    split
    · exact ⟨trivial, .refl _⟩
    · exact ⟨trivial, .cons (.of_kind hk rfl) more⟩
  · simp only [constraintsEnd, hk, if_false]
    exact ⟨trivial, .refl _⟩

theorem yields_keywordsEnd : Yields pre keywordsEnd fun _ => True := by
  refine .bind (yields_accept _ rfl) fun _ _ => .ite (fun _ => ?_) fun _ => .pure trivial
  exact .peek fun _ _ => .pure trivial

theorem consumes_keywordArg (ht : ∀ pre, Yields pre type T) :
    Consumes pre (keywordArg type) (KeywordOver T) := by
  refine .peek fun word _ => .peekNext fun sign => .ite (fun hk => ?_) fun _ => ?_
  · refine .nextTwo (.of_kind hk.1 rfl) (.of_kind hk.2 rfl) (.peek fun _ _ => ?_)
    refine .bind (yields_accept _ rfl) fun _ _ => .ite (fun _ => .pure (.inl ⟨_, rfl⟩)) fun _ => ?_
    exact .bind (ht _) fun _ h => .pure (.inr h)
  · exact consumes_unexpected_bind _

theorem yields_typeVar (ht : ∀ pre, Yields pre type T) (hs : scope = .module) {target : Token}
    (hn : Identifier target.text) {word paren : Token} (hw : word.Takeable) (hp : paren.Takeable) :
    Yields (fun tokens => (pre tokens ∧ Ahead word tokens) ∧ AheadNext paren tokens)
      (typeVar type target) (Stmt.Over T C B scope) := by
  refine .nextTwo hw hp (.bind (yields_expect _ rfl) fun _ _ => ?_)
  refine .bind (yields_repeatUntil yields_constraintsEnd (ht _)) fun constraints hc => ?_
  refine .bind (yields_repeatUntil yields_keywordsEnd (consumes_keywordArg ht).yields) fun keywords hk => ?_
  exact .bind (yields_expect _ rfl) fun _ _ => .bind (yields_expect _ rfl) fun _ _ =>
    .pure (.typeVar hs hn hc hk)

theorem yields_declaration (ht : ∀ pre, Yields pre type T) :
    Yields pre (declaration type) (Assigned.Over T) := by
  refine .bind (ht _) fun hint hh => .bind (yields_accept _ rfl) fun placeholder _ => ?_
  have hend : Yields Anywhere
      (do let _ ← expect .newline; return Assigned.declared hint placeholder) (Assigned.Over T) :=
    .bind (yields_expect _ rfl) fun _ _ => .pure hh
  refine .ite (fun _ => ?_) fun _ => hend
  exact .bind (yields_expect _ rfl) fun _ _ => hend

theorem yields_value (ht : ∀ pre, Yields pre type T) :
    Yields pre (value type) fun e => e.IsPlain ∨ T e := by
  refine .peek fun token _ => ?_
  split
  · exact .bind (yields_next (.of_kind ‹_› rfl)) fun _ _ => .pure (.inl trivial)
  · exact yields_signedNumber.mono fun _ h => .inl h.isPlain
  · exact yields_signedNumber.mono fun _ h => .inl h.isPlain
  · exact yields_signedNumber.mono fun _ h => .inl h.isPlain
  · exact .bind (yields_next (.of_kind ‹_› rfl)) fun _ _ => .pure (.inl trivial)
  · exact (ht _).mono fun _ h => .inr h

theorem yields_atIgnoreComment : Yields pre atIgnoreComment fun _ => True :=
  fun tokens _ _ => ⟨trivial, .refl tokens⟩

theorem yields_trailingComment (ht : ∀ pre, Yields pre type T) :
    Yields pre (trailingComment type) fun comment => ∀ t ∈ comment, T t := by
  refine .bind yields_atIgnoreComment fun _ _ => .ite (fun _ => ?_) fun _ => ?_
  · exact .bind consumes_ignoreComment.yields fun _ _ => .pure (by simp)
  · refine .bind (yields_accept _ rfl) fun _ _ => .ite (fun _ => ?_) fun _ => .pure (by simp)
    exact .bind (ht _) fun t h => .pure (by simpa using h)

theorem yields_followingComment (ht : ∀ pre, Yields pre type T) :
    Yields pre (followingComment type) fun comment => ∀ t ∈ comment, T t := by
  refine .peek fun token _ => .look (fun _ => rfl) fun _ => ?_
  refine .ite (fun hk => ?_) fun _ => .pure (by simp)
  refine .bind (yields_next (.of_kind hk.1 rfl)) fun _ _ => .bind (ht _) fun t h => ?_
  exact .bind (yields_expect _ rfl) fun _ _ => .pure (by simpa using h)

theorem yields_commentedValue (ht : ∀ pre, Yields pre type T) :
    Yields pre (commentedValue type) (Assigned.Over T) := by
  refine .bind (yields_value ht) fun given hg => ?_
  refine .bind (yields_trailingComment ht) fun trailing hc => ?_
  refine .bind (yields_expect _ rfl) fun _ _ => ?_
  refine .ite (fun _ => ?_) fun _ => .pure ⟨hg, hc⟩
  exact .bind (yields_followingComment ht) fun following hf => .pure ⟨hg, hf⟩

theorem consumes_assignment (ht : ∀ pre, Yields pre type T) {target : Token}
    (hk : target.kind = .ident) :
    Consumes (fun tokens => pre tokens ∧ Ahead target tokens) (assignment type scope)
      (Stmt.Over T C B scope) := by
  refine .bind (consumes_next (.of_kind hk rfl)) fun target' ht' => ?_
  have hn : Identifier target'.text := ht'.2 (ht'.1 ▸ hk)
  refine .bind (yields_accept _ rfl) fun _ _ => .ite (fun _ => ?_) fun _ => ?_
  · exact .bind (yields_declaration ht) fun _ h => .pure (.assign hn h)
  refine .bind (yields_accept _ rfl) fun _ _ => .ite (fun _ => ?_) fun _ => yields_unexpected_bind _
  refine .peek fun word _ => .peekNext fun paren => .ite (fun hw => ?_) fun _ => ?_
  · refine .ite (fun _ => yields_unexpected_bind _) fun hs => ?_
    have hmodule : scope = .module := by cases scope <;> simp_all
    exact yields_typeVar ht hmodule hn (.of_kind hw.1 rfl) (.of_kind hw.2.2 rfl)
  · exact .bind (yields_commentedValue ht) fun _ h => .pure (.assign hn h)

theorem consumes_statementWith {block : Scope → Parser (List Stmt)}
    (ht : ∀ pre, Yields pre type T) (hc : ∀ pre, Yields pre condition C)
    (hb : ∀ scope pre, Yields pre (block scope) fun body => ∀ statement ∈ body, B scope statement) :
    Consumes pre (statementWith type condition block scope)
      fun s => ∀ x ∈ s, Stmt.Over T C B scope x := by
  have hsome : ∀ x, Stmt.Over T C B scope x →
      Yields Anywhere (Pure.pure (some x)) fun s => ∀ x ∈ s, Stmt.Over T C B scope x :=
    fun x hx => .pure (by simpa using hx)
  have hnone : Yields Anywhere (do let _ ← expect .newline; return none)
      fun s => ∀ x ∈ s, Stmt.Over T C B scope x :=
    .bind (yields_expect _ rfl) fun _ _ => .pure (by simp)
  have hmodule : ¬scope = .classBody → scope = .module := by cases scope <;> simp
  refine .peek fun token _ => ?_
  split
  · exact .bind (consumes_next (.of_kind ‹_› rfl)) fun _ _ => .pure (by simp)
  · exact .bind (consumes_definition ht) hsome
  · exact .bind (consumes_definition ht) hsome
  · refine .ite (fun _ => consumes_unexpected_bind _) fun hs => ?_
    exact .bind (consumes_classDef ht (hb _) (hmodule hs) (.of_kind ‹_› rfl)) hsome
  · exact .bind (consumes_conditional hc (hb _) (.of_kind ‹_› rfl)) hsome
  · refine .ite (fun _ => consumes_unexpected_bind _) fun hs => ?_
    exact .bind (consumes_importModules (hmodule hs) (.of_kind ‹_› rfl)) hsome
  · refine .ite (fun _ => consumes_unexpected_bind _) fun hs => ?_
    exact .bind (consumes_importFrom (hmodule hs) (.of_kind ‹_› rfl)) hsome
  · exact .bind (consumes_next (.of_kind ‹_› rfl)) fun _ _ => hnone
  · exact .bind (consumes_next (.of_kind ‹_› rfl)) fun _ _ => hnone
  · exact .bind (consumes_next (.of_kind ‹_› rfl)) fun _ _ => hnone
  · exact .bind consumes_ignoreComment fun _ _ => hnone
  · exact .bind (consumes_assignment ht ‹_›) hsome
  · exact consumes_unexpected _

theorem forall_filterMap {P : Stmt → Prop} {statements : List (Option Stmt)}
    (h : ∀ s ∈ statements, ∀ x ∈ s, P x) : ∀ x ∈ statements.filterMap id, P x := by
  intro x hx
  obtain ⟨s, hs, rfl⟩ := List.mem_filterMap.mp hx
  exact h _ hs x rfl

theorem yields_blockOf {P : Stmt → Prop} {statement : Parser (Option Stmt)}
    (hs : Yields Anywhere statement fun s => ∀ x ∈ s, P x) :
    Yields pre (blockOf statement) fun body => ∀ x ∈ body, P x := by
  refine .bind (yields_expect _ rfl) fun _ _ => .bind (yields_expect _ rfl) fun _ _ => ?_
  exact .bind (yields_repeatUntil (yields_accept _ rfl) hs) fun body h => .pure (forall_filterMap h)

theorem yields_bound : Yields pre bound? fun bound => ∀ e ∈ bound, e.IsNumber := by
  refine .peek fun _ _ => ?_
  split
  · exact .pure (by simp)
  · exact .pure (by simp)
  · exact .bind yields_signedNumber fun e he => .pure (by simpa using he)

theorem yields_maybeNumber :
    Yields pre (some <$> signedNumber) fun bound => ∀ e ∈ bound, e.IsNumber :=
  .map yields_signedNumber fun e he => by simpa using he

theorem yields_indexOrSliceFrom {start : Option Expr} (hs : ∀ e ∈ start, e.IsNumber) :
    Yields pre (indexOrSliceFrom start) Expr.IsIndex := by
  refine .bind (yields_accept _ rfl) fun _ _ => .ite (fun _ => ?_) fun _ => ?_
  · refine .bind yields_bound fun stop ho => .bind (yields_accept _ rfl) fun _ _ => ?_
    refine .ite (fun _ => .peek fun _ _ => ?_) fun _ => ?_
    · refine .ite (fun _ => ?_) fun _ => ?_
      · exact .bind (.pure (by simp)) fun step he => .pure (.slice hs ho he)
      · exact .bind yields_maybeNumber fun step he => .pure (.slice hs ho he)
    · exact .bind (.pure (by simp)) fun step he => .pure (.slice hs ho he)
  · cases start with
    | some index => exact .pure (.number (hs index rfl))
    | none => exact yields_unexpected _

theorem yields_indexOrSlice : Yields pre indexOrSlice Expr.IsIndex := by
  refine .peek fun _ _ => .ite (fun _ => ?_) fun _ => ?_
  · exact .bind (.pure (by simp)) fun _ hs => yields_indexOrSliceFrom hs
  · exact .bind yields_maybeNumber fun _ hs => yields_indexOrSliceFrom hs

theorem consumes_conditionValue (budget : Nat) (pre : List Token → Prop) :
    Consumes pre (conditionValue budget) (Expr.ValueWithin budget) := by
  induction budget generalizing pre with
  | zero => exact consumes_tooDeep
  | succ budget ih =>
      refine .peek fun token _ => ?_
      split
      · exact consumes_signedNumber.mono fun _ h => .number h
      · exact consumes_signedNumber.mono fun _ h => .number h
      · exact consumes_signedNumber.mono fun _ h => .number h
      · exact .bind (consumes_next (.of_kind ‹_› rfl)) fun _ _ => .pure (.string _)
      · refine .bind (consumes_next (.of_kind ‹_› rfl)) fun _ _ => ?_
        refine .bind (yields_itemsOrNone _ _ rfl fun pre => (ih pre).yields) fun _ h => ?_
        exact .pure (.tuple h)
      · exact consumes_unexpected _

theorem yields_conditionValue (budget : Nat) (pre : List Token → Prop) :
    Yields pre (conditionValue budget) (Expr.ValueWithin budget) :=
  (consumes_conditionValue budget pre).yields

theorem consumes_conditionName : Consumes pre conditionName Expr.IsSubject := by
  refine .bind consumes_dottedName fun name hn => .bind (yields_accept _ rfl) fun _ _ => ?_
  refine .ite (fun _ => ?_) fun _ => .pure (.name hn)
  exact .bind yields_indexOrSlice fun index hi => .bind (yields_expect _ rfl) fun _ _ =>
    .pure (.indexed hn hi)

theorem consumes_conditionTerm {value : Parser Expr} (hc : ∀ pre, Yields pre condition C)
    (hv : ∀ pre, Yields pre value V) :
    Consumes pre (conditionTerm condition value) (Expr.TermNode C V) := by
  refine .accept rfl ?_ ?_
  · exact .bind (hc _) fun _ h => .bind (yields_expect _ rfl) fun _ _ => .pure (.inner h)
  · refine .bind consumes_conditionName fun left hl => .peek fun token _ => ?_
    split
    · rename_i op hop
      have htake : token.Takeable := by
        constructor <;> rintro hk <;> simp [hk, compareOp?] at hop
      exact .bind (yields_next htake) fun _ _ => .bind (hv _) fun _ hr => .pure (.compare op hl hr)
    · exact yields_unexpected _

theorem yields_condition (budget : Nat) (pre : List Token → Prop) :
    Yields pre (Grammar.condition budget) (Expr.ConditionWithin budget) := by
  induction budget generalizing pre with
  | zero => exact yields_tooDeep
  | succ budget ih =>
      refine .bind (yields_separated _ rfl fun _ =>
        (consumes_conditionTerm ih (yields_conditionValue budget)).yields) ?_
      exact fun operands h => .pure (alternatives_of_items h)

theorem consumes_statement (budget : Nat) (scope : Scope) (pre : List Token → Prop) :
    Consumes pre (statement budget scope) fun s => ∀ x ∈ s, x.Within budget scope := by
  induction budget generalizing scope pre with
  | zero =>
      exact consumes_statementWith (yields_typeExpr 0) (yields_condition 0)
        fun _ _ => yields_tooDeep
  | succ budget ih =>
      exact consumes_statementWith (yields_typeExpr _) (yields_condition _)
        fun scope _ => yields_blockOf (ih scope _).yields

-- The test for the end of a stub.
theorem yields_atEnd :
    Yields pre (do return (← peek).kind = .endOfFile : Parser Bool) fun _ => True :=
  .peek fun _ _ => .pure trivial

theorem yields_module :
    Yields Anywhere module fun body => ∀ statement ∈ body, statement.Within nestingLimit .module :=
  .bind (yields_repeatUntil yields_atEnd (consumes_statement _ _ _).yields) fun _ hb =>
    .pure (forall_filterMap hb)

-- Statements all take tokens, so that a stub that parses has been read to its end.
theorem module_stops {tokens rest : List Token} {body : List Stmt} (hs : Parser.Stream tokens)
    (h : module tokens = .ok body rest) : (rest.headD Token.stop).kind = .endOfFile := by
  obtain ⟨statements, middle, hr, hp⟩ := bind_ok h
  obtain ⟨-, rfl⟩ := (EStateM.Result.ok.injEq ..).mp hp
  obtain ⟨last, -, hlast⟩ := repeatUntil_stops yields_atEnd (consumes_statement _ _ _) hs hr
  rw [peek_bind] at hlast
  obtain ⟨hk, rfl⟩ := (EStateM.Result.ok.injEq ..).mp hlast
  simpa using hk

end TypeStub.Grammar
