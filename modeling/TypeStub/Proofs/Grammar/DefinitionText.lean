import TypeStub.Proofs.Grammar.DefinitionReads
import TypeStub.Proofs.Token.Block

-- Definitions as they are written, in lines of tokens.
namespace TypeStub.Grammar

open TypeStub.Parser

theorem spells_colon : Spells Anything ": " [sign .colon] :=
  ⟨by decide, fun _ _ _ h => .token ':' [] rfl (.blank h)⟩

theorem spells_default : Spells Delimited " = ..." [sign .equal, sign .ellipsis] :=
  ⟨by decide, fun _ _ _ h => .blank (.token '=' [] rfl (.blank (.token '.' ['.', '.'] rfl h)))⟩

theorem spells_doubleStar : Spells Anything "**" [sign .doubleStar] :=
  ⟨by decide, fun _ _ _ h => .token '*' ['*'] rfl h⟩

-- Two stars would be one token.
theorem spells_star : Spells (·.head? ≠ some '*') "*" [sign .star] := by
  refine ⟨by decide, fun rest _ hr h => .token '*' [] ?_ h⟩
  show Lexeme.symbol '*' rest = _
  unfold Lexeme.symbol
  split <;> simp_all

theorem spells_mutates : Spells Anything " := " [sign .colonEqual] :=
  ⟨by decide, fun _ _ _ h => .blank (.token ':' ['='] rfl (.blank h))⟩

theorem spells_raise : Spells Anything "raise " [sign .kwRaise] :=
  ⟨by decide, fun _ _ _ h => .token 'r' ['a', 'i', 's', 'e'] rfl (.blank h)⟩

theorem spells_call : Spells Anything "()" [sign .leftParen, sign .rightParen] :=
  ⟨by decide, fun _ _ _ h => .token '(' [] rfl (.token ')' [] rfl h)⟩

theorem spells_def : Spells Anything "def " [sign .kwDef] :=
  ⟨by decide, fun _ _ _ h => .token 'd' ['e', 'f'] rfl (.blank h)⟩

theorem spells_native : Spells (· = []) " PYTHONCODE" [sign .kwPythonCode] :=
  ⟨by decide, fun _ _ hr h => by
    subst hr
    exact .blank (.token 'P' ['Y', 'T', 'H', 'O', 'N', 'C', 'O', 'D', 'E'] rfl h)⟩

theorem spells_leftParen : Spells Anything "(" [sign .leftParen] :=
  ⟨by decide, fun _ _ _ h => .token '(' [] rfl h⟩

theorem spells_arrow : Spells Anything ") -> " [sign .rightParen, sign .arrow] :=
  ⟨by decide, fun _ _ _ h => .token ')' [] rfl (.blank (.token '-' ['>'] rfl (.blank h)))⟩

theorem spells_at : Spells Anything "@" [sign .atSign] :=
  ⟨by decide, fun _ _ _ h => .token '@' [] rfl h⟩

def hintText (hint : Option Written) : Text := hint.elim [] fun written => ": " ++ written.1

def defaultText (isOptional : Bool) : Text := if isOptional then " = ..." else []

namespace ParamText

def text : ParamText → Text
  | ordinary name hint isOptional => name ++ (hintText hint ++ defaultText isOptional)
  | bareStar => "*"
  | star name hint => "*" ++ (name ++ hintText hint)
  | doubleStar name hint => "**" ++ (name ++ hintText hint)

def name? : ParamText → Option Text
  | ordinary name _ _ | star name _ | doubleStar name _ => some name
  | bareStar => none

end ParamText

namespace LineText

def text : LineText → Text
  | mutates name type => name ++ (" := " ++ type.1)
  | raises type => "raise " ++ (type.1 ++ "()")

def name? : LineText → Option Text
  | mutates name _ => some name
  | raises _ => none

end LineText

namespace DefText

-- The end of the line of a definition with such a body.
def endText (lines : List LineText) : Text := if lines.isEmpty then ": ..." else ":"

-- The line of the word `def`.
def header (name : Text) : DefText → Text
  | external => "def " ++ (name ++ " PYTHONCODE")
  | declared params returns lines =>
      "def " ++ (name ++ ("(" ++ (Text.joinWith ", " (params.map ParamText.text) ++
        (") -> " ++ (returns.1 ++ endText lines)))))

def bodyLines : DefText → List LineText
  | external => []
  | declared _ _ lines => lines

def names : DefText → List Text
  | external => []
  | declared params _ lines =>
      params.filterMap ParamText.name? ++ lines.filterMap LineText.name?

-- A definition under its decorators.
def lines (name : Text) (decorators : List Text) (d : DefText) : List Text :=
  decorators.map (fun text => ("@" ++ text : Text)) ++
    d.header name :: d.bodyLines.map (Text.spaces 4 ++ ·.text)

-- What is written in it can be read.
structure Readable (d : DefText) : Prop where
  names : ∀ name ∈ d.names, Identifier name
  types : ∀ w ∈ d.written, Typed w.1 w.2

end DefText

section

variable {name : Text} {hint : Option Written}

theorem delimited_hint (hint : Option Written) {rest : Text} (h : Delimited rest) :
    Delimited (hintText hint ++ rest) := by
  cases hint with
  | none => exact h
  | some written => exact delimited_cons (c := ':') (by simp)

theorem spells_hinted (hn : Identifier name) (ht : ∀ w ∈ hint, Typed w.1 w.2) :
    Spells Delimited (name ++ hintText hint) ((.ident, name) :: hintSpelling hint) := by
  have hhint : Spells Delimited (hintText hint) (hintSpelling hint) := by
    cases hint with
    | none => exact ⟨show Inline [] by decide, fun _ _ _ h => h⟩
    | some written => exact spells_colon.append (ht written rfl).spells fun _ _ => trivial
  exact (spells_identifier hn).append hhint fun _ => delimited_hint hint

theorem balanced_hint (ht : ∀ w ∈ hint, Typed w.1 w.2) : Balanced (hintSpelling hint) := by
  cases hint with
  | none => exact .nil
  | some written => exact .cons (fun _ => rfl) (ht written rfl).balanced

theorem spells_param {p : ParamText} (hn : ∀ name ∈ p.name?, Identifier name)
    (ht : ∀ w ∈ p.hint?, Typed w.1 w.2) : Spells Delimited p.text p.spelling := by
  cases p with
  | ordinary name hint isOptional =>
      have hhinted := spells_hinted (hn name rfl) ht
      have hdefault : Spells Delimited (defaultText isOptional)
          (if isOptional then [sign .equal, sign .ellipsis] else []) := by
        cases isOptional with
        | true => exact spells_default
        | false => exact ⟨show Inline [] by decide, fun _ _ _ h => h⟩
      have hall := hhinted.append hdefault fun rest hr => by
        cases isOptional with
        | true => exact delimited_cons (c := ' ') (by simp)
        | false => exact hr
      rwa [List.append_assoc] at hall
  | bareStar =>
      refine spells_star.mono fun rest hr hc => ?_
      exact absurd (hr '*' hc) (by decide)
  | star name hint =>
      refine spells_star.append (spells_hinted (hn name rfl) ht) fun rest _ hc => ?_
      cases hn name rfl with
      | word hf =>
          obtain rfl := Option.some.inj hc
          exact absurd hf (by decide)
      | quoted => exact absurd (Option.some.inj hc) (by decide)
  | doubleStar name hint =>
      exact spells_doubleStar.append (spells_hinted (hn name rfl) ht) fun _ _ => trivial

theorem balanced_param {p : ParamText} (ht : ∀ w ∈ p.hint?, Typed w.1 w.2) :
    Balanced p.spelling := by
  cases p with
  | ordinary name hint isOptional =>
      refine .cons (fun _ => rfl) ((balanced_hint ht).append ?_)
      cases isOptional <;> exact fun _ => rfl
  | bareStar => exact fun _ => rfl
  | star name hint | doubleStar name hint =>
      exact .cons (fun _ => rfl) (.cons (fun _ => rfl) (balanced_hint ht))

theorem line_of_lineText {l : LineText} (hn : ∀ name ∈ l.name?, Identifier name)
    (ht : Typed l.type.1 l.type.2) : Line l.text l.spelling := by
  cases l with
  | mutates name type =>
      have htype := spells_mutates.append ht.spells fun _ _ => trivial
      have hall := (spells_identifier (hn name rfl)).append htype
        fun _ _ => delimited_cons (c := ' ') (by simp)
      exact .of_spells ((hn name rfl).opens.append _) hall delimited_nil
        (.cons (fun _ => rfl) (.cons (fun _ => rfl) ht.balanced))
  | raises type =>
      have hcall := ht.spells.append spells_call fun _ _ => delimited_cons (c := '(') (by simp)
      have hall := spells_raise.append hcall fun _ _ => trivial
      have hopens : Opens ("raise " : Text) := ⟨'r', _, rfl, by decide, by decide⟩
      exact .of_spells (hopens.append _) hall trivial
        (.cons (fun _ => rfl) (ht.balanced.append fun _ => rfl))

theorem opens_def (rest : Text) : Opens ("def " ++ rest) :=
  ⟨'d', _, rfl, by decide, by decide⟩

theorem line_native (hn : Identifier name) :
    Line (DefText.external.header name) [sign .kwDef, (.ident, name), sign .kwPythonCode] := by
  have hnative := (spells_identifier hn).append spells_native
    fun _ _ => delimited_cons (c := ' ') (by simp)
  exact .of_spells (opens_def _) (spells_def.append hnative fun _ _ => trivial) rfl fun _ => rfl

theorem line_header {params : List ParamText} {returns : Written} {lines : List LineText}
    (hn : Identifier name) (hd : (DefText.declared params returns lines).Readable) :
    Line ((DefText.declared params returns lines).header name)
      (sign .kwDef :: (.ident, name) :: sign .leftParen ::
        (separatedBy (sign .comma) (params.map ParamText.spelling) ++
          (sign .rightParen :: sign .arrow :: (spell returns.1 ++
            (sign .colon :: if lines.isEmpty then [sign .ellipsis] else []))))) := by
  have hhint : ∀ p ∈ params, ∀ w ∈ p.hint?, Typed w.1 w.2 := fun p hp w hw =>
    hd.types w (List.mem_append_left _ (List.mem_filterMap.mpr ⟨p, hp, hw⟩))
  have hname : ∀ p ∈ params, ∀ name ∈ p.name?, Identifier name := fun p hp name hm =>
    hd.names name (List.mem_append_left _ (List.mem_filterMap.mpr ⟨p, hp, hm⟩))
  have hreturns : Typed returns.1 returns.2 :=
    hd.types returns (List.mem_append_right _ List.mem_cons_self)
  have htail : Spells (· = []) (DefText.endText lines)
      (sign .colon :: if lines.isEmpty then [sign .ellipsis] else []) := by
    unfold DefText.endText
    cases lines.isEmpty with
    | true =>
        refine ⟨by decide, fun _ _ _ h => ?_⟩
        exact .token ':' [] rfl (.blank (.token '.' ['.', '.'] rfl h))
    | false =>
        refine ⟨by decide, fun _ _ hr h => ?_⟩
        subst hr
        exact .token ':' [] rfl h
  have hparams := spells_joined fun p hp => spells_param (hname p hp) (hhint p hp)
  have hresult := hreturns.spells.append htail fun rest _ => by
    unfold DefText.endText
    cases lines.isEmpty <;> exact delimited_cons (c := ':') (by simp)
  have harrow := hparams.append (spells_arrow.append hresult fun _ _ => trivial)
    fun _ _ => delimited_cons (c := ')') (by simp)
  have hopen := (spells_identifier hn).append (spells_leftParen.append harrow fun _ _ => trivial)
    fun _ _ => delimited_cons (c := '(') (by simp)
  have hline := spells_def.append hopen fun _ _ => trivial
  refine .of_spells (opens_def _) hline rfl ?_
  have hbracket : Balanced (sign .leftParen ::
      separatedBy (sign .comma) (params.map ParamText.spelling) ++ [sign .rightParen]) :=
    (balanced_joined fun p hp => balanced_param (hhint p hp)).bracket (fun _ => rfl) fun _ => rfl
  have hrest : Balanced (sign .arrow :: (spell returns.1 ++
      (sign .colon :: if lines.isEmpty then [sign .ellipsis] else []))) := by
    refine .cons (fun _ => rfl) (hreturns.balanced.append ?_)
    cases lines.isEmpty <;> exact fun _ => rfl
  have hall := hbracket.append hrest
  rw [List.cons_append, List.cons_append, List.append_assoc] at hall
  exact .cons (fun _ => rfl) (.cons (fun _ => rfl) hall)

theorem block_body {d : DefText} (hn : Identifier name) (hd : d.Readable) :
    Block (d.header name :: d.bodyLines.map (Text.spaces 4 ++ ·.text))
      (sign .kwDef :: (.ident, name) :: d.spelling) := by
  cases d with
  | external => exact (line_native hn).block
  | declared params returns lines =>
      have hheader := line_header hn hd
      cases lines with
      | nil =>
          have hblock := hheader.block
          simpa [DefText.bodyLines, DefText.spelling, bodySpelling] using hblock
      | cons first rest =>
          have hline : ∀ l ∈ first :: rest, Block [l.text] (l.spelling ++ [sign .newline]) := by
            refine fun l hl => (line_of_lineText (fun name hm => hd.names name ?_) ?_).block
            · exact List.mem_append_right _ (List.mem_filterMap.mpr ⟨l, hl, hm⟩)
            · refine hd.types l.type (List.mem_append_right _ ?_)
              exact List.mem_cons_of_mem _ (List.mem_map_of_mem hl)
          have hnest := hheader.nest (.flatMap (by simp) hline)
          rw [← List.map_eq_flatMap, List.map_map] at hnest
          simpa [DefText.bodyLines, DefText.spelling, bodySpelling, Function.comp_def] using hnest

-- A definition is a block of its lines.
theorem block_definition {decorators : List Text} {d : DefText}
    (ht : ∀ text ∈ decorators, DottedName text) (hn : Identifier name) (hd : d.Readable) :
    Block (d.lines name decorators)
      ((decorators.flatMap fun text => [sign .atSign] ++ (spell text ++ [sign .newline])) ++
        (sign .kwDef :: (.ident, name) :: d.spelling)) := by
  induction decorators with
  | nil => exact block_body hn hd
  | cons text rest ih =>
      have htext := (ht text (by simp)).spell
      have hline : Line ("@" ++ text) (sign .atSign :: spell text) :=
        .of_spells ⟨'@', text, rfl, by decide, by decide⟩
          (spells_at.append htext.spells fun _ _ => trivial) delimited_nil
          (.cons (fun _ => rfl) htext.balanced)
      have hall := hline.block.append (ih fun other hm => ht other (by simp [hm]))
      simpa [DefText.lines] using hall

end

end TypeStub.Grammar
