import TypeStub.Proofs.Grammar.StatementReads

namespace TypeStub.Grammar

open TypeStub.Parser

-- A type as it is written: its text and what is read from it.
abbrev Written := Text × Expr

-- The tokens of a type after a colon, if there is one.
def hintSpelling (hint : Option Written) : List Spelling :=
  hint.elim [] fun written => sign .colon :: spell written.1

-- A parameter as it is written. A default is a placeholder.
inductive ParamText
  | ordinary (name : Text) (hint : Option Written) (isOptional : Bool)
  | bareStar
  | star (name : Text) (hint : Option Written)
  | doubleStar (name : Text) (hint : Option Written)

namespace ParamText

def param : ParamText → Param
  | ordinary name hint isOptional =>
      .ordinary name (hint.map (·.2)) (if isOptional then some .ellipsis else none)
  | bareStar => .bareStar
  | star name hint => .star name (hint.map (·.2))
  | doubleStar name hint => .doubleStar name (hint.map (·.2))

def spelling : ParamText → List Spelling
  | ordinary name hint isOptional =>
      (.ident, name) :: (hintSpelling hint ++
        if isOptional then [sign .equal, sign .ellipsis] else [])
  | bareStar => [sign .star]
  | star name hint => sign .star :: (.ident, name) :: hintSpelling hint
  | doubleStar name hint => sign .doubleStar :: (.ident, name) :: hintSpelling hint

def hint? : ParamText → Option Written
  | ordinary _ hint _ | star _ hint | doubleStar _ hint => hint
  | bareStar => none

end ParamText

section

variable {type : Parser Expr} {follow : List Spelling → Prop}

theorem reads_hint {hint : Option Written} (hr : ∀ w ∈ hint, ReadsType type w.1 w.2) :
    Reads (hint? type) (hintSpelling hint)
      (fun s => (headSpelling s).1 ∈ [.comma, .rightParen, .equal]) (· = hint.map (·.2)) := by
  cases hint with
  | none =>
      refine .refused (fun s hs => ?_) (.pure rfl)
      show (headSpelling s).1 ≠ .colon
      intro he
      rw [he] at hs
      exact absurd hs (by decide)
  | some written =>
      refine .accepted ":" ?_
      refine ((hr written rfl).mono (fun s hs => ?_) fun _ h => h).bindPure fun _ h => by rw [h]; rfl
      exact typeEnds_of_mem _ hs (by decide)

theorem hintEnds_of_afterItem {s : List Spelling} (h : AfterItem .comma .rightParen s) :
    (headSpelling s).1 ∈ [TokenKind.comma, .rightParen, .equal] := by
  rcases h with h | h <;> simp [h]

theorem reads_placeholder : Reads defaultValue [sign .ellipsis] follow (· = .ellipsis) := by
  refine .peek fun token ⟨s, _, ht⟩ => ?_
  have hk : token.kind = .ellipsis := congrArg Prod.fst ht
  simp only [hk]
  exact .taken fun _ _ => .pure rfl

theorem reads_param {p : ParamText} (hr : ∀ w ∈ p.hint?, ReadsType type w.1 w.2) :
    Reads (param type) p.spelling (AfterItem .comma .rightParen) (· = p.param) := by
  cases p with
  | ordinary name hint isOptional =>
      have hdefault : ∀ s, AfterItem .comma .rightParen s →
          (headSpelling ((if isOptional then [sign .equal, sign .ellipsis] else []) ++ s)).1 ∈
            [TokenKind.comma, .rightParen, .equal] := by
        intro s hs
        cases isOptional with
        | true => simp
        | false => exact hintEnds_of_afterItem hs
      refine .refused (fun _ _ => by simp [ParamText.spelling]) ?_
      refine .refused (fun _ _ => by simp [ParamText.spelling]) ?_
      refine .refused (fun _ _ => by simp [ParamText.spelling]) (.expected name fun token ht => ?_)
      have hname : token.text = name := congrArg Prod.snd ht
      refine (reads_hint hr).bind (fun _ hh => ?_) hdefault
      cases isOptional with
      | true =>
          refine .accepted "=" (reads_placeholder.bindPure fun _ hd => ?_)
          rw [hname, hh, hd]
          rfl
      | false =>
          refine .refused (fun s hs => ?_) (.pure ?_)
          · rcases hs with hs | hs <;> simp [hs]
          · rw [hname, hh]
            rfl
  | bareStar =>
      refine .refused (fun _ _ => by simp [ParamText.spelling]) ?_
      refine .refused (fun _ _ => by simp [ParamText.spelling]) (.accepted "*" ?_)
      refine .peek fun token ⟨s, hs, ht⟩ => ?_
      have hk : token.kind = (headSpelling s).1 := congrArg Prod.fst ht
      rw [if_neg (by rcases hs with hs | hs <;> simp [hk, hs])]
      exact .pure rfl
  | star name hint =>
      refine .refused (fun _ _ => by simp [ParamText.spelling]) ?_
      refine .refused (fun _ _ => by simp [ParamText.spelling]) (.accepted "*" ?_)
      refine .peek fun token ⟨s, _, ht⟩ => ?_
      have hk : token.kind = .ident := congrArg Prod.fst ht
      rw [if_pos hk]
      refine .taken fun token ht => ?_
      have hname : token.text = name := congrArg Prod.snd ht
      refine ((reads_hint hr).mono (fun _ hs => hintEnds_of_afterItem hs) fun _ h => h).bindPure ?_
      intro _ hh
      rw [hname, hh]
      rfl
  | doubleStar name hint =>
      refine .refused (fun _ _ => by simp [ParamText.spelling]) (.accepted "**" ?_)
      refine .expected name fun token ht => ?_
      have hname : token.text = name := congrArg Prod.snd ht
      refine ((reads_hint hr).mono (fun _ hs => hintEnds_of_afterItem hs) fun _ h => h).bindPure ?_
      intro _ hh
      rw [hname, hh]
      rfl

theorem reads_params {ps : List ParamText}
    (hr : ∀ p ∈ ps, ∀ w ∈ p.hint?, ReadsType type w.1 w.2) :
    Reads (params type)
      (separatedBy (sign .comma) (ps.map ParamText.spelling) ++ [sign .rightParen]) follow
      (· = ps.map ParamText.param) := by
  have hall : Reads (params type)
      (separatedBy (sign .comma) (ps.map ParamText.spelling) ++ [sign .rightParen]) follow
      (List.Forall₂ (fun p a => a = p.param) ps) :=
    .itemsOrNone (fun p hp => reads_param (hr p hp))
      (fun p _ _ => by cases p <;> simp [ParamText.spelling]) (by simp)
  exact hall.mono (fun _ hs => hs) fun _ h => eq_map_of_forall₂ h

end

-- A line of a definition's body.
inductive LineText
  | mutates (name : Text) (type : Written)
  | raises (type : Written)

namespace LineText

def spelling : LineText → List Spelling
  | mutates name type => (.ident, name) :: sign .colonEqual :: spell type.1
  | raises type => sign .kwRaise :: (spell type.1 ++ [sign .leftParen, sign .rightParen])

def line : LineText → BodyLine
  | mutates name type => .mutates name type.2
  | raises type => .raises type.2

def type : LineText → Written
  | mutates _ type | raises type => type

-- What is raised must not open a record.
def Plain : LineText → Prop
  | mutates _ _ => True
  | raises type => type.2 ≠ .name "NamedTuple"

end LineText

section

variable {type : Parser Expr} {follow : List Spelling → Prop}

theorem reads_noIgnoreComment : Reads ignoreCommentIfAny []
    (fun s => (headSpelling s).1 ≠ .typeComment) (fun _ => True) := by
  refine .peek fun token ⟨s, hs, ht⟩ => ?_
  have hk : token.kind ≠ .typeComment := by
    rw [show token.kind = (headSpelling s).1 from congrArg Prod.fst ht]
    exact hs
  rw [if_neg hk]
  exact .pure trivial

-- The end of a line of a body.
theorem reads_lineEnd (line : BodyLine) :
    Reads (do ignoreCommentIfAny; let _ ← expect .newline; return line) [sign .newline] follow
      (· = line) := by
  rw [← List.nil_append [sign .newline]]
  exact reads_noIgnoreComment.bind (fun _ _ => .expected "\n" fun _ _ => .pure rfl)
    fun _ _ => by simp

theorem reads_bodyLine {l : LineText} (hr : ReadsType type l.type.1 l.type.2) (hp : l.Plain) :
    Reads (bodyLine type) (l.spelling ++ [sign .newline]) follow (· = l.line) := by
  cases l with
  | mutates name written =>
      refine .peek fun token ⟨s, _, ht⟩ => ?_
      have hk : token.kind = .ident := congrArg Prod.fst ht
      simp only [hk]
      refine .taken fun token ht => .expected ":=" fun _ _ => ?_
      have hname : token.text = name := congrArg Prod.snd ht
      refine hr.bind (fun _ he => ?_) fun s _ => typeEnds_of_kind .newline rfl (by decide)
      rw [hname, he]
      exact reads_lineEnd (.mutates name written.2)
  | raises written =>
      refine .peek fun token ⟨s, _, ht⟩ => ?_
      have hk : token.kind = .kwRaise := congrArg Prod.fst ht
      simp only [hk]
      refine .taken fun token ht => ?_
      show Reads _ ((spell written.1 ++ [sign .leftParen, sign .rightParen]) ++ [sign .newline]) _ _
      rw [List.append_assoc]
      refine hr.bind (fun _ he => ?_) fun s _ => ?_
      · rw [he]
        refine .accepted "(" (.expected ")" fun _ _ => ?_)
        exact reads_lineEnd (.raises written.2)
      · exact ⟨by simp, by simp, by simp, fun he => absurd he hp⟩

-- A body is an ellipsis on the line of the header, or a block of its lines.
def bodySpelling : List LineText → List Spelling
  | [] => [sign .ellipsis, sign .newline]
  | lines =>
      sign .newline :: sign .indent ::
        (lines.flatMap fun l => l.spelling ++ [sign .newline]) ++ [sign .dedent]

theorem LineText.kind_spelling (l : LineText) (s : List Spelling) :
    (headSpelling (l.spelling ++ s)).1 ∈ [TokenKind.ident, .kwRaise] := by
  cases l <;> simp [spelling]

theorem reads_emptyLine :
    Reads (bodyLine type) [sign .ellipsis, sign .newline] follow (· = .nothing) := by
  refine .peek fun token ⟨s, _, ht⟩ => ?_
  have hk : token.kind = .ellipsis := congrArg Prod.fst ht
  simp only [hk]
  exact .taken fun _ _ => reads_lineEnd .nothing

theorem reads_bodyLines {lines : List LineText}
    (hr : ∀ l ∈ lines, ReadsType type l.type.1 l.type.2) (hp : ∀ l ∈ lines, l.Plain) :
    Reads (bodyLines type) (bodySpelling lines) follow fun read =>
      read.filterMap BodyLine.raised? = (lines.map LineText.line).filterMap BodyLine.raised? ∧
        read.filterMap BodyLine.mutated? =
          (lines.map LineText.line).filterMap BodyLine.mutated? := by
  cases lines with
  | nil =>
      rw [← List.nil_append (bodySpelling [])]
      refine reads_noIgnoreComment.bind (fun _ _ => ?_) fun _ _ => by simp [bodySpelling]
      refine .refused (fun _ _ => by simp [bodySpelling]) (reads_emptyLine.bindPure fun _ h => ?_)
      rw [h]
      exact ⟨rfl, rfl⟩
  | cons first rest =>
      have hlines : Reads (repeatUntil (accept .dedent) (bodyLine type))
          (((first :: rest).flatMap fun l => [] ++ (l.spelling ++ [sign .newline])) ++
            [sign .dedent]) follow
          (List.Forall₂ (fun l a => a = l.line) (first :: rest)) := by
        have hline : ∀ l ∈ first :: rest, Reads (bodyLine type) (l.spelling ++ [sign .newline])
            (fun _ => True) (· = l.line) := fun l hl => reads_bodyLine (hr l hl) (hp l hl)
        refine .repeatUntil (reads_refuse fun s hs => hs) hline (reads_accept _)
          (fun l _ s _ he => ?_) (fun _ _ _ => trivial) (fun _ _ => trivial) (by simp)
        have hkind := l.kind_spelling ([sign .newline] ++ s)
        rw [← List.append_assoc, he] at hkind
        exact absurd hkind (by decide)
      rw [← List.nil_append (bodySpelling (first :: rest))]
      refine reads_noIgnoreComment.bind (fun _ _ => ?_) fun _ _ => by simp [bodySpelling]
      refine .accepted "\n" (.expected "<INDENT>" fun _ _ => ?_)
      refine hlines.mono (fun _ hs => hs) fun read h => ?_
      rw [eq_map_of_forall₂ h]
      exact ⟨rfl, rfl⟩

end

-- A definition as it is written: external, or a signature with its body.
inductive DefText
  | external
  | declared (params : List ParamText) (returns : Written) (lines : List LineText)

namespace DefText

def spelling : DefText → List Spelling
  | external => [sign .kwPythonCode, sign .newline]
  | declared params returns lines =>
      sign .leftParen :: (separatedBy (sign .comma) (params.map ParamText.spelling) ++
        (sign .rightParen :: sign .arrow :: (spell returns.1 ++ (sign .colon :: bodySpelling lines))))

def body : DefText → DefBody
  | external => .external
  | declared params returns lines =>
      .declared (params.map ParamText.param) (some returns.2)
        ((lines.map LineText.line).filterMap BodyLine.raised?)
        ((lines.map LineText.line).filterMap BodyLine.mutated?)

-- The types that are written in a definition.
def written : DefText → List Written
  | external => []
  | declared params returns lines =>
      params.filterMap ParamText.hint? ++ returns :: lines.map LineText.type

def Plain : DefText → Prop
  | external => True
  | declared _ _ lines => ∀ l ∈ lines, l.Plain

end DefText

section

variable {type condition : Parser Expr} {block : Scope → Parser (List Stmt)} {scope : Scope}
  {follow : List Spelling → Prop}

theorem reads_defBody {d : DefText} (hr : ∀ w ∈ d.written, ReadsType type w.1 w.2)
    (hp : d.Plain) : Reads (defBody type) d.spelling follow (· = d.body) := by
  cases d with
  | external => exact .accepted _ (.expected "\n" fun _ _ => .pure rfl)
  | declared params returns lines =>
      refine .refused (fun _ _ => by simp [DefText.spelling]) (.expected "(" fun _ _ => ?_)
      have hparams : Reads (Grammar.params type)
          (separatedBy (sign .comma) (params.map ParamText.spelling) ++ [sign .rightParen])
          (fun _ => True) (· = params.map ParamText.param) := by
        refine reads_params fun p hp w hw => hr w ?_
        exact List.mem_append_left _ (List.mem_filterMap.mpr ⟨p, hp, hw⟩)
      rw [List.append_cons]
      refine hparams.bind (fun _ hps => ?_) fun _ _ => trivial
      have hreturns : Reads (returnType? type) (sign .arrow :: spell returns.1)
          (fun s => (headSpelling s).1 = .colon) (· = some returns.2) := by
        refine .accepted "->" ?_
        have htype := hr returns (List.mem_append_right _ List.mem_cons_self)
        refine (htype.mono (fun s hs => ?_) fun _ h => h).bindPure fun _ h => by rw [h]
        exact typeEnds_of_kind .colon hs (by decide)
      refine hreturns.bind (fun _ hreturn => ?_) fun _ _ => rfl
      refine .refused (fun _ _ => by simp) (.expected ":" fun _ _ => ?_)
      refine (reads_bodyLines (fun l hl => hr l.type ?_) hp).bindPure fun read hread => ?_
      · exact List.mem_append_right _ (List.mem_cons_of_mem _ (List.mem_map_of_mem hl))
      · rw [hps, hreturn, hread.1, hread.2]
        rfl

theorem reads_decorator {text : Text} (h : DottedName text) :
    Reads Grammar.decorator (spell text ++ [sign .newline]) follow (· = text) := by
  refine (reads_dottedName h.spell).bind (fun _ ht => ?_) fun _ _ => by simp
  exact .expected "\n" fun _ _ => .pure ht

-- A definition under its name, with its decorators on lines before it.
theorem reads_definition {name : Text} {decorators : List Text} {d : DefText}
    (hd : ∀ text ∈ decorators, DottedName text)
    (hr : ∀ w ∈ d.written, ReadsType type w.1 w.2) (hp : d.Plain) :
    Reads (statementWith type condition block scope)
      ((decorators.flatMap fun text => [sign .atSign] ++ (spell text ++ [sign .newline])) ++
        (sign .kwDef :: (.ident, name) :: d.spelling)) follow
      (Stated fun s => ∃ place, s = .definition place ⟨name, decorators, d.body⟩) := by
  have hdecorators : Reads (repeatUntil (do return !(← accept .atSign)) Grammar.decorator)
      ((decorators.flatMap fun text => [sign .atSign] ++ (spell text ++ [sign .newline])) ++ [])
      (fun s => (headSpelling s).1 = .kwDef) (List.Forall₂ (fun text a => a = text) decorators) := by
    have hone : ∀ text ∈ decorators, Reads Grammar.decorator (spell text ++ [sign .newline])
        (fun _ => True) (· = text) := fun text ht => reads_decorator (hd text ht)
    have hlead : Reads (do return !(← accept .atSign)) [sign .atSign] (fun _ => True) (· = false) :=
      .accepted "@" (.pure rfl)
    refine .repeatUntil hlead hone (.refused (fun s hs => by simp [hs]) (.pure rfl))
      (fun _ _ _ _ => trivial) (fun _ _ _ => trivial) (fun _ _ => trivial) (by simp)
  rw [List.append_nil] at hdecorators
  have hall : Reads (Grammar.definition type)
      ((decorators.flatMap fun text => [sign .atSign] ++ (spell text ++ [sign .newline])) ++
        (sign .kwDef :: (.ident, name) :: d.spelling)) follow
      fun s => ∃ place, s = .definition place ⟨name, decorators, d.body⟩ := by
    refine hdecorators.bind (fun texts ht => .expected "def" fun word _ => ?_) fun _ _ => rfl
    refine .expected name fun token hn => (reads_defBody hr hp).bindPure fun _ hb => ?_
    have hname : token.text = name := congrArg Prod.snd hn
    have htexts := (eq_map_of_forall₂ (f := id) ht).trans (List.map_id _)
    exact ⟨_, by rw [hname, htexts, hb]⟩
  refine .peek fun token ⟨s, _, ht⟩ => ?_
  have hk : token.kind = .atSign ∨ token.kind = .kwDef := by
    cases decorators with
    | nil => exact .inr (congrArg Prod.fst ht)
    | cons _ _ => exact .inl (congrArg Prod.fst ht)
  rcases hk with hk | hk <;> simp only [hk] <;> exact hall.bindPure fun s hs => ⟨s, rfl, hs⟩

end

end TypeStub.Grammar
