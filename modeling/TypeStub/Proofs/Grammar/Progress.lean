import TypeStub.Proofs.Grammar.Parsed
import TypeStub.Proofs.Token.Account
import TypeStub.Proofs.Token.Placed

-- Every step of the scanner and every item of the grammar takes something, so that both come to
-- an end.
namespace TypeStub

-- A scan goes on behind a blank or a token.
def Cursor.Steps (c next : Cursor) : Prop :=
  c.step = .blank next ∨ ∃ kind text, c.step = .token kind text next

-- Where the scans of a source look for a token: first at the beginning of a line, behind its blanks.
inductive Visits (lines : List Text) : Cursor → Prop
  | start {row column : Nat} {line : Text} {below : List Text} {layout : Layout} {found : List Token}
      {marks : List TokenKind} {indents : List Nat} {loneComment : Bool} :
      Margin.Run (Margin.initial lines) found ⟨row, line :: below, layout⟩ →
      lineStart line layout = .scan column marks indents loneComment →
      Visits lines ⟨row, column, line.drop column, below⟩
  | step {c next : Cursor} : Visits lines c → c.Steps next → Visits lines next

section

variable {lines : List Text} {c next : Cursor} {m last : Margin} {found : List Token}

-- A step leads on, to a place of the source that comes later.
theorem Cursor.On.steps (hl : ∀ line ∈ lines, '\n' ∉ line) (hon : c.On lines)
    (h : c.Steps next) : c.spot < next.spot ∧ next.On lines := by
  rcases h with hblank | ⟨kind, text, htoken⟩
  · have hnext := (hon.step_blank hblank).2
    obtain ⟨_, _, -, -, rfl⟩ := Cursor.step_blank_inv hblank
    refine ⟨Spot.lt_iff.mpr (.inr ⟨rfl, ?_⟩), hnext⟩
    exact Nat.lt_succ_self c.column
  · obtain ⟨hstands, hspot, hnext⟩ := hon.step_token hl htoken
    exact ⟨hspot ▸ Spot.lt_past hstands.nonempty c.spot, hnext⟩

theorem Margin.Run.on (hl : ∀ line ∈ lines, '\n' ∉ line) (hon : m.On lines)
    (h : Margin.Run m found last) : last.On lines := by
  induction h with
  | refl => exact hon
  | line hline _ ih => exact ih (hline.tiles hl hon).2

-- Every place that is visited stands in the source.
theorem Visits.on (hl : ∀ line ∈ lines, '\n' ∉ line) (h : Visits lines c) : c.On lines := by
  induction h with
  | start hrun hstart =>
      have hmargin := hrun.on hl (.initial lines)
      exact hmargin.cursor (LineStart.fits_of_eq hstart).1
  | step _ hstep ih => exact (ih.steps hl hstep).2

end

namespace Parser

section

variable {α : Type} {tokens : List Token} {stop : Parser Bool} {item : Parser α} {Q : α → Prop}

-- Nothing is taken at the end of the file.
theorem Leaves.at_end {rest : List Token} (h : Leaves tokens rest)
    (he : (tokens.headD Token.stop).kind = .endOfFile) : rest = tokens := by
  obtain ⟨taken, rfl, htaken⟩ := h
  cases taken with
  | nil => rfl
  | cons t taken => exact absurd he (htaken t (by simp)).2

-- A parser that takes a token fails where there is none to take.
theorem Consumes.at_end (h : Consumes Anywhere item Q) (hs : Stream tokens)
    (he : (tokens.headD Token.stop).kind = .endOfFile) : ∃ e, item tokens = .error e tokens := by
  cases hr : item tokens with
  | ok a rest =>
      have hlt := h.shorter hs trivial hr
      rw [(h.yields.ok hs trivial hr).2.at_end he] at hlt
      exact absurd hlt (Nat.lt_irrefl _)
  | error e rest => exact ⟨e, by rw [(h.yields.error hs trivial hr).2.at_end he]⟩

-- Items that take tokens are read one after the other, with no other bound on them.
theorem repeatUntil_eq (hstop : Yields Anywhere stop fun _ => True)
    (hitem : Consumes Anywhere item Q) (hs : Stream tokens) :
    repeatUntil stop item tokens =
      match stop tokens with
      | .error e rest => .error e rest
      | .ok true rest => .ok [] rest
      | .ok false rest =>
          match item rest with
          | .error e rest => .error e rest
          | .ok a rest =>
              match repeatUntil stop item rest with
              | .error e rest => .error e rest
              | .ok as rest => .ok (a :: as) rest := by
  rw [repeatUntil]
  cases hgo : stop tokens with
  | error e rest => rfl
  | ok done rest =>
      cases done with
      | true => rfl
      | false =>
          dsimp only
          cases hr : item rest with
          | error e after => rfl
          | ok a after =>
              have hrest := (hstop.ok hs trivial hgo).2
              have hshorter := hitem.shorter (hs.leaves hrest) trivial hr
              dsimp only
              refine (if_pos (Nat.lt_of_lt_of_le hshorter hrest.length_le)).trans ?_
              cases repeatUntil stop item after <;> rfl

-- A repetition reads no item at the end of the file.
theorem repeatUntil_at_end (hstop : Yields Anywhere stop fun _ => True)
    (hitem : Consumes Anywhere item Q) (hs : Stream tokens)
    (he : (tokens.headD Token.stop).kind = .endOfFile) :
    repeatUntil stop item tokens = .ok [] tokens ∨
      ∃ e, repeatUntil stop item tokens = .error e tokens := by
  rw [repeatUntil_eq hstop hitem hs]
  cases hgo : stop tokens with
  | error e rest =>
      obtain rfl := (hstop.error hs trivial hgo).2.at_end he
      exact .inr ⟨e, rfl⟩
  | ok done rest =>
      obtain rfl := (hstop.ok hs trivial hgo).2.at_end he
      cases done with
      | true => exact .inl rfl
      | false =>
          obtain ⟨e, hfails⟩ := hitem.at_end hs he
          dsimp only
          exact .inr ⟨e, by rw [hfails]⟩

end

end Parser

namespace Grammar

open TypeStub.Parser

-- What the grammar repeats: statements and the lines of a body, and the items of its lists, with
-- at most so many types, conditions or values nested in them.
inductive Item : (α : Type) → Parser α → Prop
  | statement (budget : Nat) (scope : Scope) : Item _ (statement budget scope)
  | bodyLine (budget : Nat) : Item _ (bodyLine (typeExpr budget))
  | decorator : Item _ decorator
  | param (budget : Nat) : Item _ (param (typeExpr budget))
  | classArg (budget : Nat) : Item _ (classArg (typeExpr budget))
  | type (budget : Nat) : Item _ (typeExpr budget)
  | typeAtom (budget : Nat) : Item _ (typeAtom (typeExpr budget))
  | recordField (budget : Nat) : Item _ (recordField (typeExpr budget))
  | conditionValue (budget : Nat) : Item _ (conditionValue budget)
  | conditionTerm (budget : Nat) :
      Item _ (conditionTerm (condition budget) (Grammar.conditionValue budget))
  | importedModule : Item _ importedModule
  | importedMember : Item _ importedMember
  | keywordArg (budget : Nat) : Item _ (keywordArg (typeExpr budget))

-- How it is decided whether another item follows.
inductive Stops : Parser Bool → Prop
  | endOfFile : Stops (do return (← peek).kind = .endOfFile)
  | dedent : Stops (accept .dedent)
  | noDecorator : Stops (do return !(← accept .atSign))
  | noSeparator {separator : TokenKind} : separator.isTakeable = true →
      Stops (do return !(← accept separator))
  | closes {close : TokenKind} (expected : List TokenKind) : close.isTakeable = true →
      Stops (closes close expected)
  | constraintsEnd : Stops constraintsEnd
  | keywordsEnd : Stops keywordsEnd

section

variable {α : Type} {p : Parser α} {stop : Parser Bool}

theorem consumes_classArg (budget : Nat) :
    Consumes Anywhere (classArg (typeExpr budget)) fun _ => True := by
  refine .peek fun word _ => .peekNext fun sign => .ite (fun hk => ?_) fun _ => ?_
  · exact .nextTwo (.of_kind hk.1 rfl) (.of_kind hk.2 rfl)
      (.bind (yields_typeExpr budget _) fun _ _ => .pure trivial)
  · exact .bind (consumes_typeExpr budget _) fun _ _ => .pure trivial

-- An item takes at least one token.
theorem Item.consumes (h : Item α p) : Consumes Anywhere p fun _ => True := by
  have htype (budget : Nat) := yields_typeExpr budget
  cases h with
  | statement budget scope => exact (consumes_statement budget scope _).mono fun _ _ => trivial
  | bodyLine budget => exact (consumes_bodyLine (htype budget)).mono fun _ _ => trivial
  | decorator => exact consumes_decorator.mono fun _ _ => trivial
  | param budget => exact (consumes_param (htype budget)).mono fun _ _ => trivial
  | classArg budget => exact consumes_classArg budget
  | type budget => exact (consumes_typeExpr budget _).mono fun _ _ => trivial
  | typeAtom budget => exact (consumes_typeAtom (htype budget)).mono fun _ _ => trivial
  | recordField budget => exact (consumes_recordField (htype budget)).mono fun _ _ => trivial
  | conditionValue budget => exact (consumes_conditionValue budget _).mono fun _ _ => trivial
  | conditionTerm budget =>
      exact (consumes_conditionTerm (yields_condition budget) (yields_conditionValue budget)).mono
        fun _ _ => trivial
  | importedModule => exact consumes_importedModule.mono fun _ _ => trivial
  | importedMember => exact consumes_importedMember.mono fun _ _ => trivial
  | keywordArg budget => exact (consumes_keywordArg (htype budget)).mono fun _ _ => trivial

theorem Stops.yields (h : Stops stop) : Yields Anywhere stop fun _ => True := by
  cases h with
  | endOfFile => exact yields_atEnd
  | dedent => exact yields_accept _ rfl
  | noDecorator => exact .bind (yields_accept _ rfl) fun _ _ => .pure trivial
  | noSeparator hk => exact .bind (yields_accept _ hk) fun _ _ => .pure trivial
  | closes expected hk => exact yields_closes _ expected hk
  | constraintsEnd => exact yields_constraintsEnd
  | keywordsEnd => exact yields_keywordsEnd

end

end Grammar

open TypeStub.Parser TypeStub.Grammar

-- What is left of the tokens of a source when a parser has taken some.
def Remains (source : Text) (tokens : List Token) : Prop :=
  Parser.Leaves (tokenize (sourceLines source)) tokens

-- How many have been taken.
def position (source : Text) (tokens : List Token) : Nat :=
  (tokenize (sourceLines source)).length - tokens.length

section

variable {source : Text} {tokens rest : List Token}

theorem Remains.stream (h : Remains source tokens) : Stream tokens :=
  (stream_tokenize source).leaves h

theorem Remains.leaves (h : Remains source tokens) (hl : Parser.Leaves tokens rest) :
    Remains source rest := Parser.Leaves.trans h hl

-- The next token is one of the source.
theorem Remains.getElem?_position (h : Remains source tokens) :
    (tokenize (sourceLines source))[position source tokens]? = some (tokens.headD Token.stop) := by
  obtain ⟨t, more, rfl, -⟩ := h.stream.cons_of
  obtain ⟨taken, htokens, -⟩ := h
  have hposition : position source (t :: more) = taken.length := by
    rw [position, htokens, List.length_append, Nat.add_sub_cancel]
  rw [hposition, htokens, List.getElem?_append_right (Nat.le_refl _), Nat.sub_self]
  rfl

theorem Remains.position_lt (h : Remains source tokens) (hl : rest.length < tokens.length) :
    position source tokens < position source rest := by
  have hle := Parser.Leaves.length_le h
  unfold position
  omega

end

-- Scanning and parsing make progress. A scan goes on to places of the source that come later and
-- later, and from line to line. Wherever a parser stands, it stands at a token of the source, and a
-- stub that is read is read to the end of the file. An item of the grammar that is read takes at
-- least one token, so that no repetition is cut short. At the end of the file no item is read, and
-- every repetition is over or fails.
theorem source_progress (source : Text) :
    (∀ c, Visits (sourceLines source) c →
      (c.row < (sourceLines source).length ∧
        c.column ≤ (rowText (sourceLines source) c.row).length) ∧
      ∀ next, c.Steps next → c.spot < next.spot ∧ Visits (sourceLines source) next) ∧
    (∀ found m, Margin.Run (Margin.initial (sourceLines source)) found m →
      m.row ≤ (sourceLines source).length ∧
      ∀ more next, Margin.Line m more next → m.row < next.row) ∧
    (match Grammar.module (tokenize (sourceLines source)) with
      | .ok _ rest => Remains source rest ∧ (rest.headD Token.stop).kind = .endOfFile
      | .error _ rest => Remains source rest) ∧
    (∀ tokens, Remains source tokens →
      (tokenize (sourceLines source))[position source tokens]? = some (tokens.headD Token.stop)) ∧
    (∀ α p, Item α p → ∀ tokens, Remains source tokens →
      (match p tokens with
        | .ok _ rest => Remains source rest ∧ position source tokens < position source rest
        | .error _ rest => Remains source rest) ∧
      ((tokens.headD Token.stop).kind = .endOfFile → ∃ e, p tokens = .error e tokens) ∧
      ∀ stop, Stops stop →
        (repeatUntil stop p tokens =
          match stop tokens with
          | .error e rest => .error e rest
          | .ok true rest => .ok [] rest
          | .ok false rest =>
              match p rest with
              | .error e rest => .error e rest
              | .ok a rest =>
                  match repeatUntil stop p rest with
                  | .error e rest => .error e rest
                  | .ok as rest => .ok (a :: as) rest) ∧
        ((tokens.headD Token.stop).kind = .endOfFile →
          repeatUntil stop p tokens = .ok [] tokens ∨
            ∃ e, repeatUntil stop p tokens = .error e tokens)) := by
  have hl := sourceLines_newline source
  refine ⟨fun c hc => ?_, fun found m hrun => ?_, ?_, fun tokens => Remains.getElem?_position,
    fun α p hp tokens hr => ?_⟩
  · have hon := hc.on hl
    exact ⟨⟨hon.row, hon.column⟩, fun next hn => ⟨(hon.steps hl hn).1, hc.step hn⟩⟩
  · exact ⟨(hrun.on hl (.initial _)).row, fun more next => Margin.Line.row_lt⟩
  · have hs := stream_tokenize source
    cases hm : Grammar.module (tokenize (sourceLines source)) with
    | ok body rest => exact ⟨(yields_module.ok hs trivial hm).2, module_stops hs hm⟩
    | error e rest => exact (yields_module.error hs trivial hm).2
  · have hconsumes := hp.consumes
    refine ⟨?_, hconsumes.at_end hr.stream, fun stop hstop => ?_⟩
    · cases hrun : p tokens with
      | ok a rest =>
          have hleaves := (hconsumes.yields.ok hr.stream trivial hrun).2
          exact ⟨hr.leaves hleaves, hr.position_lt (hconsumes.shorter hr.stream trivial hrun)⟩
      | error e rest => exact hr.leaves (hconsumes.yields.error hr.stream trivial hrun).2
    · exact ⟨repeatUntil_eq hstop.yields hconsumes hr.stream,
        repeatUntil_at_end hstop.yields hconsumes hr.stream⟩

-- A string over two lines, and a parameter list that the file ends in.
theorem source_progress_unclosed :
    let source : Text := "'''\n''' def f(a"
    let name : Token := ⟨.ident, ['a'], 2, 11⟩
    let last : Token := ⟨.endOfFile, [], 3, 1⟩
    let next : Cursor := ⟨1, 3, " def f(a", []⟩
    (Visits (sourceLines source) next ∧ (⟨0, 0⟩ : Spot) < next.spot) ∧
    position source [name, last] < position source [last] ∧
    ∃ e, param (typeExpr 1) [last] = .error e [last] := by
  intro source name last next
  have hlines : sourceLines source = (["'''", "''' def f(a"] : List Text) := by decide
  have htokens : tokenize (sourceLines source) =
      [⟨.string, "'''\n'''", 1, 1⟩, ⟨.kwDef, "def", 2, 5⟩, ⟨.ident, ['f'], 2, 9⟩,
        ⟨.leftParen, ['('], 2, 10⟩] ++ [name, last] := by decide +kernel
  have hname : Remains source [name, last] := by
    refine ⟨_, htokens, fun t ht => ?_⟩
    simp only [List.mem_cons, List.not_mem_nil, or_false] at ht
    obtain rfl | rfl | rfl | rfl := ht <;> exact .of_kind rfl rfl
  obtain ⟨hvisits, -, -, -, hitems⟩ := source_progress source
  obtain ⟨hparam, -⟩ := hitems _ _ (.param 1) _ hname
  have hrun : param (typeExpr 1) [name, last] = .ok (.ordinary ['a'] none none) [last] := by rfl
  rw [hrun] at hparam
  refine ⟨?_, hparam.2, ?_⟩
  · have hfirst : Margin.Run (Margin.initial (sourceLines source)) []
        ⟨0, ["'''", "''' def f(a"], ⟨0, false, []⟩⟩ := hlines ▸ .refl _
    have hstart : Visits (sourceLines source) ⟨0, 0, "'''", ["''' def f(a"]⟩ := .start hfirst rfl
    obtain ⟨hlater, hnext⟩ := (hvisits _ hstart).2 next (.inr ⟨_, _, rfl⟩)
    exact ⟨hnext, hlater⟩
  · exact (hitems _ _ (.param 1) [last] hparam.1).2.1 rfl

end TypeStub
