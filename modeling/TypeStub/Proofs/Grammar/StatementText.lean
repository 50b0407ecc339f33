import TypeStub.Grammar.Stub
import TypeStub.Proofs.Grammar.ClassReads
import TypeStub.Proofs.Grammar.DefinitionText

-- Statements as they are written, in lines of tokens, and as they are read.
namespace TypeStub

namespace Lexeme

theorem closingQuote_cons {c : Char} (hb : c ≠ '\\') (hq : c ≠ '\'') (rest : Text) :
    closingQuote? '\'' (c :: rest) = (closingQuote? '\'' rest).map (· + 1) := by
  rw [closingQuote?]
  · rw [if_neg hq]
  · exact fun h => absurd h hb
  · exact fun _ _ h => absurd h hb

-- A quote closes a body that holds none, unless a backslash at the end of the body hides it.
theorem closingQuote_append (rest : Text) : ∀ {body : Text}, '\'' ∉ body →
    body.getLast? ≠ some '\\' →
      closingQuote? '\'' (body ++ '\'' :: rest) = some (body.length + 1)
  | [], _, _ => rfl
  | c :: more, hq, hl => by
      have hc : c ≠ '\'' := fun h => hq (h ▸ List.mem_cons_self)
      have hmore : '\'' ∉ more := fun h => hq (List.mem_cons_of_mem _ h)
      by_cases hb : c = '\\'
      · subst hb
        cases more with
        | nil => exact absurd rfl hl
        | cons hidden after =>
            have hquote : '\'' ∉ after := fun h => hmore (List.mem_cons_of_mem _ h)
            have hlast : after.getLast? ≠ some '\\' := by
              intro h
              rw [List.getLast?_cons_cons, List.getLast?_cons, h] at hl
              exact hl rfl
            show (closingQuote? '\'' (after ++ '\'' :: rest)).map (· + 2) = _
            rw [closingQuote_append rest hquote hlast]
            rfl
      · have hlast : more.getLast? ≠ some '\\' := by
          intro h
          rw [List.getLast?_cons, h] at hl
          exact hl rfl
        rw [List.cons_append, closingQuote_cons hb hc, closingQuote_append rest hmore hlast]
        rfl

-- A name between single quotes is one string.
theorem ofText_literal {body rest : Text} (hq : '\'' ∉ body) (hne : body ≠ [])
    (hl : body.getLast? ≠ some '\\') :
    ofText '\'' (body ++ '\'' :: rest) = .token .string (body.length + 2) := by
  have hopen : Text.startsWith ['\'', '\''] (body ++ '\'' :: rest) = false := by
    cases body with
    | nil => exact absurd rfl hne
    | cons c more =>
        have hc : ('\'' == c) = false := beq_eq_false_iff_ne.mpr fun h => hq (h ▸ List.mem_cons_self)
        show ('\'' == c && _) = false
        rw [hc, Bool.false_and]
  have hstring : string? ('\'' :: (body ++ '\'' :: rest)) =
      some (.token .string (body.length + 2)) := by
    have hquote : string? ('\'' :: (body ++ '\'' :: rest)) =
        some (ofQuote 0 '\'' (body ++ '\'' :: rest)) := by
      have hletters : (('\'' :: (body ++ '\'' :: rest)).take 2).takeWhile isStringPrefix = [] := rfl
      simp only [string?, hletters]
      rfl
    rw [hquote, ofQuote, hopen, closingQuote_append rest hq hl]
    simp only [Bool.false_eq_true, if_false]
    congr 2
    omega
  have hblank : Text.isBlank '\'' = false := by decide
  simp [ofText, hblank, hstring]

end Lexeme

theorem Identifier.getLast_ne {name : Text} (h : Identifier name) : name.getLast? ≠ some '\\' := by
  cases h with
  | word hf hr hk =>
      intro hl
      rcases List.mem_cons.mp (List.mem_of_getLast? hl) with rfl | hm
      · exact absurd hf (by decide)
      · exact absurd (hr _ hm) (by decide)
  | quoted hne hb hl =>
      rw [List.getLast?_append]
      simp [Lexeme.backtick]

theorem spells_literal {body : Text} (hi : Inline body) (hq : '\'' ∉ body) (hne : body ≠ [])
    (hl : body.getLast? ≠ some '\\') :
    Spells Anything ('\'' :: (body ++ ['\''])) [(.string, '\'' :: (body ++ ['\'']))] := by
  have hquote : Inline ['\''] := by decide
  refine ⟨hquote.append (hi.append hquote), fun rest more _ hs => ?_⟩
  refine .token '\'' (body ++ ['\'']) ?_ hs
  rw [List.append_assoc, List.length_append]
  exact Lexeme.ofText_literal hq hne hl

theorem unquote_literal {body : Text} (hq : '\'' ∉ body) (hne : body ≠ []) :
    unquote ('\'' :: (body ++ ['\''])) = body := by
  obtain ⟨c, more, rfl⟩ := List.exists_cons_of_ne_nil hne
  have hc : ('\'' == c) = false := beq_eq_false_iff_ne.mpr fun h => hq (h ▸ List.mem_cons_self)
  have hopen : Text.startsWith ['\'', '\''] (c :: more ++ ['\'']) = false := by
    show ('\'' == c && _) = false
    rw [hc, Bool.false_and]
  have hdrop : ('\'' :: (c :: more ++ ['\''])).dropWhile
      (fun c => !(c == '"' || c == '\'')) = '\'' :: (c :: more ++ ['\'']) := rfl
  simp only [unquote, hdrop, hopen]
  simp

theorem DottedName.undotted {name : Text} (h : DottedName name) (rest : Text) :
    Undotted (name ++ rest) := by
  cases h with
  | single h => exact h.undotted rest
  | cons h _ =>
      rw [List.append_assoc]
      exact h.undotted _

namespace Grammar

open TypeStub.Parser

-- A statement that may stand in a class body too.
inductive MemberText
  | constant (name : Text) (type : Written)
  | definition (name : Text) (decorators : List Text) (d : DefText)

-- A statement as it is written.
inductive StmtText
  | importModule (module : Text)
  | importFrom (module : Text) (members : List ImportedName)
  | synonym (name : Text) (type : Written)
  | typeVariable (name : Text) (constraints : List Written)
  | classDef (name : Text) (args : List ArgText) (members : List MemberText)
  | member (member : MemberText)

-- A member of a module, under its own name.
def memberNamed (name : Text) : ImportedName := ⟨name, none⟩

-- A type that can be read where so many types may be nested.
structure ReadableAt (budget : Nat) (w : Written) : Prop where
  typed : Typed w.1 w.2
  heads : w.2.Heads (spell w.1)
  plain : ∃ c rest, w.1 = c :: rest ∧ c ≠ '='
  nesting : w.2.nesting ≤ budget

theorem ReadableAt.reads {budget : Nat} {w : Written} (h : ReadableAt budget w) :
    ReadsType (typeExpr budget) w.1 w.2 := h.typed.reads budget h.nesting

namespace MemberText

def lines : MemberText → List Text
  | constant name type => [name ++ (" = ...  # type: " ++ type.1)]
  | definition name decorators d => d.lines name decorators

def spelling : MemberText → List Spelling
  | constant name type =>
      (.ident, name) :: sign .equal :: sign .ellipsis :: sign .typeComment ::
        spell type.1 ++ [sign .newline]
  | definition name decorators d =>
      (decorators.flatMap fun text => [sign .atSign] ++ (spell text ++ [sign .newline])) ++
        (sign .kwDef :: (.ident, name) :: d.spelling)

-- The statement that is read from it, wherever it stands.
def Says : MemberText → Stmt → Prop
  | constant name type, s => ∃ place, s = .assign place name (.value .ellipsis (some type.2))
  | definition name decorators d, s => ∃ place, s = .definition place ⟨name, decorators, d.body⟩

-- A type comment that starts with the word ignore would be no type comment.
def Readable (budget : Nat) : MemberText → Prop
  | constant name type => Identifier name ∧ ReadableAt budget type ∧ type.2.headName ≠ "ignore"
  | definition name decorators d =>
      Identifier name ∧ (∀ text ∈ decorators, DottedName text) ∧ d.Readable ∧ d.Plain ∧
        ∀ w ∈ d.written, w.2.nesting ≤ budget

end MemberText

-- A member of an import, before its local name if that is another.
def importedText (member : ImportedName) : Text :=
  member.name ++ member.asName.elim [] fun name => (" as " ++ name : Text)

def ArgText.text (a : ArgText) : Text :=
  a.keyword.elim [] (fun word => (word ++ "=" : Text)) ++ a.type.1

def argsText (args : List ArgText) : Text :=
  if args.isEmpty then [] else "(" ++ (Text.joinWith ", " (args.map ArgText.text) ++ ")")

-- A class without members has a line that says so.
def classBodyLines (members : List MemberText) : List Text :=
  if members.isEmpty then ["pass"] else members.flatMap MemberText.lines

def classBodySpelling (members : List MemberText) : List Spelling :=
  if members.isEmpty then [sign .kwPass, sign .newline] else members.flatMap MemberText.spelling

namespace StmtText

def lines : StmtText → List Text
  | importModule module => ["import " ++ module]
  | importFrom module members =>
      ["from " ++ (module ++ (" import " ++ Text.joinWith ", " (members.map importedText)))]
  | synonym name type => [name ++ (" = " ++ type.1)]
  | typeVariable name constraints =>
      [name ++ (" = TypeVar(" ++ ('\'' :: (name ++ ['\'']) ++
        ((constraints.flatMap fun w => (", " ++ w.1 : Text)) ++ ")")))]
  | classDef name args members =>
      ("class " ++ (name ++ (argsText args ++ ":"))) ::
        (classBodyLines members).map (Text.spaces 4 ++ ·)
  | member m => m.lines

-- How many empty lines there are under a statement.
def gap : StmtText → Nat
  | classDef _ _ _ => 1
  | _ => 0

def spelling : StmtText → List Spelling
  | importModule module => sign .kwImport :: spell module ++ [sign .newline]
  | importFrom module members =>
      sign .kwFrom :: (spell module ++ (sign .kwImport ::
        (separatedBy (sign .comma) (members.map memberSpelling) ++ [sign .newline])))
  | synonym name type => (.ident, name) :: sign .equal :: spell type.1 ++ [sign .newline]
  | typeVariable name constraints =>
      (.ident, name) :: sign .equal :: (.ident, "TypeVar") :: sign .leftParen ::
        (.string, '\'' :: (name ++ ['\''])) ::
          (constraints.flatMap fun w => [sign .comma] ++ spell w.1) ++
            [sign .rightParen, sign .newline]
  | classDef name args members =>
      sign .kwClass :: (.ident, name) :: (argsSpelling args ++ (sign .colon :: sign .newline ::
        sign .indent :: (classBodySpelling members ++ [sign .dedent])))
  | member m => m.spelling

-- The statement that is read from it, wherever it stands.
def Says : StmtText → Stmt → Prop
  | importModule module, s => ∃ place, s = .importModules place [memberNamed module]
  | importFrom module members, s => ∃ place, s = .importFrom place module members
  | synonym name type, s => ∃ place, s = .assign place name (.value type.2 none)
  | typeVariable name constraints, s =>
      ∃ place, s = .typeVar place name name (constraints.map (·.2)) []
  | classDef name args members, s => ∃ place body,
      s = .classDef place name (args.map ArgText.arg) body ∧
        List.Forall₂ MemberText.Says members body
  | member m, s => m.Says s

-- A class body is nested in a block.
def Readable : StmtText → Prop
  | importModule module => DottedName module
  | importFrom module members => (∃ spellings, SourceModule module spellings) ∧ members ≠ [] ∧
      ∀ imported ∈ members, Identifier imported.name ∧ ∀ name ∈ imported.asName, Identifier name
  | synonym name type =>
      Identifier name ∧ ReadableAt nestingLimit type ∧ isEllipsis type.2 = false
  | typeVariable name constraints =>
      Identifier name ∧ '\'' ∉ name ∧ ∀ w ∈ constraints, ReadableAt nestingLimit w
  | classDef name args members =>
      Identifier name ∧
        (∀ a ∈ args, ReadableAt nestingLimit a.type ∧ ∀ word ∈ a.keyword, Identifier word) ∧
        ∀ m ∈ members, m.Readable (nestingLimit - 1)
  | member m => m.Readable nestingLimit

end StmtText

theorem spells_import : Spells Anything "import " [sign .kwImport] :=
  ⟨by decide, fun _ _ _ h => .token 'i' ['m', 'p', 'o', 'r', 't'] rfl (.blank h)⟩

theorem spells_from : Spells Anything "from " [sign .kwFrom] :=
  ⟨by decide, fun _ _ _ h => .token 'f' ['r', 'o', 'm'] rfl (.blank h)⟩

theorem spells_as : Spells Anything " as " [sign .kwAs] :=
  ⟨by decide, fun _ _ _ h => .blank (.token 'a' ['s'] rfl (.blank h))⟩

theorem spells_equal : Spells Anything " = " [sign .equal] :=
  ⟨by decide, fun _ _ _ h => .blank (.token '=' [] rfl (.blank h))⟩

-- Two equals signs would be one token.
theorem spells_keyword : Spells (·.head? ≠ some '=') "=" [sign .equal] := by
  refine ⟨by decide, fun rest _ hr h => .token '=' [] ?_ h⟩
  show Lexeme.symbol '=' rest = _
  unfold Lexeme.symbol
  split <;> simp_all

theorem spells_class : Spells Anything "class " [sign .kwClass] :=
  ⟨by decide, fun _ _ _ h => .token 'c' ['l', 'a', 's', 's'] rfl (.blank h)⟩

theorem spells_pass : Spells (· = []) "pass" [sign .kwPass] :=
  ⟨by decide, fun _ _ hr h => by subst hr; exact .token 'p' ['a', 's', 's'] rfl h⟩

theorem spells_rightParen : Spells Anything ")" [sign .rightParen] :=
  ⟨by decide, fun _ _ _ h => .token ')' [] rfl h⟩

theorem spells_typeVar : Spells Anything " = TypeVar("
    [sign .equal, (.ident, "TypeVar"), sign .leftParen] :=
  ⟨by decide, fun _ _ _ h => .blank (.token '=' [] rfl (.blank
    (.token 'T' ['y', 'p', 'e', 'V', 'a', 'r'] rfl (.token '(' [] rfl h))))⟩

theorem spells_typeComment : Spells Anything " = ...  # type: "
    [sign .equal, sign .ellipsis, sign .typeComment] :=
  ⟨by decide, fun _ _ _ h => .blank (.token '=' [] rfl (.blank (.token '.' ['.', '.'] rfl
    (.blank (.blank (.token '#' " type:" rfl (.blank h)))))))⟩

-- At most two dots before something else are as many tokens.
theorem scans_dots {n : Nat} (hn : n ≤ 2) {rest : Text} {more : List Spelling}
    (hr : Undotted rest) (h : Scans rest more) :
    Scans (List.replicate n '.' ++ rest) (List.replicate n (sign .dot) ++ more) := by
  match n, hn with
  | 0, _ => exact h
  | 1, _ => exact hr.scans h
  | 2, _ =>
      have hsecond : Scans ('.' :: rest) (sign .dot :: more) := hr.scans h
      have hdot : Lexeme.ofText '.' ('.' :: rest) = .token .dot 1 := by
        rw [Lexeme.ofText_symbol_dot rfl]
        refine Lexeme.symbol_dot (.inr fun hd => ?_)
        exact (hr '.' hd).1 rfl
      exact .token '.' [] hdot hsecond

-- What follows the module of an import is a blank, if anything.
def Spaced (rest : Text) : Prop := ∀ c ∈ rest.head?, c = ' '

theorem Spaced.undotted {rest : Text} (h : Spaced rest) : Undotted rest := fun c hc => by
  rw [h c hc]
  decide

theorem Spaced.delimited {rest : Text} (h : Spaced rest) : Delimited rest := fun c hc => by
  rw [h c hc]
  decide

theorem inline_dots (n : Nat) : Inline (List.replicate n '.') := by
  refine ⟨fun hm => ?_, fun hl => ?_⟩
  · exact absurd (List.eq_of_mem_replicate hm) (by decide)
  · exact absurd (List.eq_of_mem_replicate (List.mem_of_getLast? hl)) (by decide)

theorem SourceModule.spells {module : Text} {spellings : List Spelling}
    (h : SourceModule module spellings) : Spells Spaced module spellings := by
  cases h with
  | @named n name hn h =>
      refine ⟨(inline_dots n).append h.spell.spells.inline, fun rest more hr hs => ?_⟩
      rw [List.append_assoc, List.append_assoc]
      exact scans_dots hn (h.undotted rest)
        (h.spell.spells.scans rest more hr.delimited hs)
  | @dots n hn _ =>
      exact ⟨inline_dots n, fun rest more hr hs => scans_dots hn hr.undotted hs⟩

theorem balanced_dots (n : Nat) : Balanced (List.replicate n (sign .dot)) := by
  induction n with
  | zero => exact .nil
  | succ n ih => exact .cons (fun _ => rfl) ih

theorem SourceModule.balanced {module : Text} {spellings : List Spelling}
    (h : SourceModule module spellings) : Balanced spellings := by
  cases h with
  | @named n name _ h => exact (balanced_dots n).append h.spell.balanced
  | @dots n _ _ => exact balanced_dots n

theorem SourceModule.spell {module : Text} {spellings : List Spelling}
    (h : SourceModule module spellings) : TypeStub.spell module = spellings := by
  have hend : Spaced [] := by simp [Spaced]
  exact (h.spells.whole hend).spell

section

variable {name : Text} {w : Written} {budget : Nat}

theorem line_typed {lead : Text} {opening : List Spelling} (hn : Identifier name)
    (hl : Spells Anything lead opening) (hd : ∀ rest, Delimited (lead ++ rest))
    (hb : Balanced opening) (ht : Typed w.1 w.2) :
    Line (name ++ (lead ++ w.1)) ((.ident, name) :: (opening ++ spell w.1)) := by
  have htype := hl.append ht.spells fun _ _ => trivial
  have hall := (spells_identifier hn).append htype fun rest _ => by
    rw [List.append_assoc]
    exact hd _
  exact .of_spells (hn.opens.append _) hall delimited_nil
    (.cons (fun _ => rfl) (hb.append ht.balanced))

theorem block_constant (hn : Identifier name) (ht : Typed w.1 w.2) :
    Block (MemberText.constant name w).lines (MemberText.constant name w).spelling :=
  (line_typed hn spells_typeComment (fun _ => delimited_cons (c := ' ') (by simp))
    (fun _ => rfl) ht).block

theorem block_member {m : MemberText} (h : m.Readable budget) : Block m.lines m.spelling := by
  cases m with
  | constant name type => exact block_constant h.1 h.2.1.typed
  | definition name decorators d => exact block_definition h.2.1 h.1 h.2.2.1

theorem spells_imported {member : ImportedName} (hn : Identifier member.name)
    (ha : ∀ name ∈ member.asName, Identifier name) :
    Spells Delimited (importedText member) (memberSpelling member) := by
  have has : Spells Delimited (member.asName.elim [] fun name => (" as " ++ name : Text))
      (member.asName.elim [] fun name => [sign .kwAs, (.ident, name)]) := by
    cases hm : member.asName with
    | none => exact ⟨show Inline [] by decide, fun _ _ _ h => h⟩
    | some name => exact spells_as.append (spells_identifier (ha name hm)) fun _ _ => trivial
  refine (spells_identifier hn).append has fun rest hr => ?_
  cases member.asName with
  | none => exact hr
  | some name => exact delimited_cons (c := ' ') (by simp)

theorem balanced_imported (member : ImportedName) : Balanced (memberSpelling member) := by
  refine .cons (fun _ => rfl) ?_
  cases member.asName <;> exact fun _ => rfl

theorem line_importFrom {module : Text} {members : List ImportedName}
    (hm : ∃ spellings, SourceModule module spellings)
    (h : ∀ imported ∈ members, Identifier imported.name ∧
      ∀ name ∈ imported.asName, Identifier name) :
    Line ("from " ++ (module ++ (" import " ++ Text.joinWith ", " (members.map importedText))))
      (sign .kwFrom :: (spell module ++ (sign .kwImport ::
        separatedBy (sign .comma) (members.map memberSpelling)))) := by
  obtain ⟨spellings, hs⟩ := hm
  have hword : Spells Anything " import " [sign .kwImport] :=
    ⟨by decide, fun rest more hr h => .blank (spells_import.scans rest more hr h)⟩
  have hmembers := spells_joined fun imported hi =>
    spells_imported (h imported hi).1 (h imported hi).2
  have himport := hword.append hmembers fun _ _ => trivial
  have hmodule := hs.spells.append himport fun _ _ => by simp [Spaced]
  rw [hs.spell]
  refine .of_spells ⟨'f', _, rfl, by decide, by decide⟩
    (spells_from.append hmodule fun _ _ => trivial) delimited_nil ?_
  exact .cons (fun _ => rfl) (hs.balanced.append (.cons (fun _ => rfl)
    (balanced_joined fun imported _ => balanced_imported imported)))

-- Constraints up to the closing parenthesis, each after a comma.
theorem spells_constraints {constraints : List Written}
    (hc : ∀ w ∈ constraints, Typed w.1 w.2) :
    Spells Delimited ((constraints.flatMap fun w => (", " ++ w.1 : Text)) ++ ")")
      ((constraints.flatMap fun w => [sign .comma] ++ spell w.1) ++ [sign .rightParen]) := by
  induction constraints with
  | nil => exact spells_rightParen.mono fun _ _ => trivial
  | cons w rest ih =>
      have hfirst := spells_comma.append (hc w (by simp)).spells fun _ _ => trivial
      have hrest := ih fun other hm => hc other (by simp [hm])
      have hall := hfirst.append hrest fun after _ => by
        cases rest with
        | nil => exact delimited_cons (c := ')') (by simp)
        | cons next more => exact delimited_cons (c := ',') (by simp)
      simpa only [List.flatMap_cons, List.append_assoc] using hall

theorem balanced_constraints {constraints : List Written}
    (hc : ∀ w ∈ constraints, Typed w.1 w.2) :
    Balanced (constraints.flatMap fun w => [sign .comma] ++ spell w.1) := by
  induction constraints with
  | nil => exact .nil
  | cons w rest ih =>
      rw [List.flatMap_cons]
      have hfirst : Balanced ([sign .comma] ++ spell w.1) :=
        .cons (fun _ => rfl) (hc w (by simp)).balanced
      exact hfirst.append (ih fun other hm => hc other (by simp [hm]))

theorem line_typeVariable {constraints : List Written} (hn : Identifier name) (hq : '\'' ∉ name)
    (hc : ∀ w ∈ constraints, Typed w.1 w.2) :
    Line (name ++ (" = TypeVar(" ++ ('\'' :: (name ++ ['\'']) ++
        ((constraints.flatMap fun w => (", " ++ w.1 : Text)) ++ ")"))))
      ((.ident, name) :: sign .equal :: (.ident, "TypeVar") :: sign .leftParen ::
        (.string, '\'' :: (name ++ ['\''])) ::
          (constraints.flatMap fun w => [sign .comma] ++ spell w.1) ++ [sign .rightParen]) := by
  have hliteral := spells_literal hn.inline hq hn.ne_nil hn.getLast_ne
  have hcall := spells_typeVar.append
    (hliteral.append (spells_constraints hc) fun _ _ => trivial) fun _ _ => trivial
  have hall := (spells_identifier hn).append hcall fun _ _ => delimited_cons (c := ' ') (by simp)
  refine .of_spells (hn.opens.append _) hall delimited_nil ?_
  have hbracket : Balanced (sign .leftParen :: ((.string, '\'' :: (name ++ ['\''])) ::
      constraints.flatMap fun w => [sign .comma] ++ spell w.1) ++ [sign .rightParen]) :=
    (Balanced.cons (fun _ => rfl) (balanced_constraints hc)).bracket (fun _ => rfl) fun _ => rfl
  exact .cons (fun _ => rfl) (.cons (fun _ => rfl) (.cons (fun _ => rfl) hbracket))

theorem spells_arg {a : ArgText} (hk : ∀ word ∈ a.keyword, Identifier word)
    (ht : ReadableAt budget a.type) : Spells Delimited a.text a.spelling := by
  obtain ⟨keyword, type⟩ := a
  cases keyword with
  | none => exact ht.typed.spells
  | some word =>
      have htype := spells_keyword.append ht.typed.spells fun rest _ => by
        obtain ⟨c, more, (htext : type.1 = c :: more), hc⟩ := ht.plain
        simp [htext, hc]
      have hall := (spells_identifier (hk word rfl)).append htype
        fun _ _ => delimited_cons (c := '=') (by simp)
      rw [← List.append_assoc] at hall
      exact hall

theorem balanced_arg {a : ArgText} (ht : ReadableAt budget a.type) : Balanced a.spelling := by
  refine Balanced.append ?_ ht.typed.balanced
  cases a.keyword <;> exact fun _ => rfl

theorem line_classDef {args : List ArgText} (hn : Identifier name)
    (ha : ∀ a ∈ args, ReadableAt budget a.type ∧ ∀ word ∈ a.keyword, Identifier word) :
    Line ("class " ++ (name ++ (argsText args ++ ":")))
      (sign .kwClass :: (.ident, name) :: (argsSpelling args ++ [sign .colon])) := by
  have hopens : Opens ("class " : Text) := ⟨'c', _, rfl, by decide, by decide⟩
  have hcolon : Spells (· = []) ":" [sign .colon] :=
    ⟨by decide, fun _ _ hr h => by subst hr; exact .token ':' [] rfl h⟩
  have hargs : Spells Delimited (argsText args) (argsSpelling args) := by
    unfold argsText argsSpelling
    cases args with
    | nil => exact ⟨show Inline [] by decide, fun _ _ _ h => h⟩
    | cons first rest =>
        have hjoined := spells_joined fun a hm => spells_arg (ha a hm).2 (ha a hm).1
        have hparen : Spells Delimited ")" [sign .rightParen] :=
          spells_rightParen.mono fun _ _ => trivial
        have hclose := hjoined.append hparen fun _ _ => delimited_cons (c := ')') (by simp)
        exact spells_leftParen.append hclose fun _ _ => trivial
  have hheader := hargs.append hcolon fun _ _ => delimited_cons (c := ':') (by simp)
  have hall := (spells_identifier hn).append hheader fun rest _ => by
    unfold argsText
    cases args with
    | nil => exact delimited_cons (c := ':') (by simp)
    | cons first rest => exact delimited_cons (c := '(') (by simp)
  refine .of_spells (hopens.append _) (spells_class.append hall fun _ _ => trivial) rfl ?_
  have hbalanced : Balanced (argsSpelling args) := by
    unfold argsSpelling
    cases args with
    | nil => exact .nil
    | cons first rest =>
        exact (balanced_joined fun a hm => balanced_arg (ha a hm).1).bracket (fun _ => rfl)
          fun _ => rfl
  exact .cons (fun _ => rfl) (.cons (fun _ => rfl) (hbalanced.append fun _ => rfl))

theorem block_classBody {members : List MemberText} (h : ∀ m ∈ members, m.Readable budget) :
    Block (classBodyLines members) (classBodySpelling members) := by
  cases members with
  | nil =>
      have hpass : Line "pass" [sign .kwPass] :=
        .of_spells ⟨'p', _, rfl, by decide, by decide⟩ spells_pass rfl fun _ => rfl
      exact hpass.block
  | cons first rest => exact .flatMap (by simp) fun m hm => block_member (h m hm)

theorem block_stmt {s : StmtText} (h : s.Readable) : Block s.lines s.spelling := by
  cases s with
  | importModule module =>
      have hname := DottedName.spell h
      have hline : Line ("import " ++ module) (sign .kwImport :: spell module) :=
        .of_spells ⟨'i', _, rfl, by decide, by decide⟩
          (spells_import.append hname.spells fun _ _ => trivial) delimited_nil
          (.cons (fun _ => rfl) hname.balanced)
      exact hline.block
  | importFrom module members =>
      have hblock := (line_importFrom h.1 h.2.2).block
      simpa [StmtText.lines, StmtText.spelling] using hblock
  | synonym name type =>
      exact (line_typed h.1 spells_equal (fun _ => delimited_cons (c := ' ') (by simp))
        (fun _ => rfl) h.2.1.typed).block
  | typeVariable name constraints =>
      have hblock := (line_typeVariable h.1 h.2.1 fun w hw => (h.2.2 w hw).typed).block
      simpa [StmtText.lines, StmtText.spelling] using hblock
  | classDef name args members =>
      have hblock := (line_classDef h.1 h.2.1).nest (block_classBody h.2.2)
      simpa [StmtText.lines, StmtText.spelling] using hblock
  | member m => exact block_member h

end

-- Each budget has its own parser of blocks.
theorem statement_eq (budget : Nat) (scope : Scope) : ∃ block,
    statement budget scope = statementWith (typeExpr budget) (condition budget) block scope := by
  cases budget with
  | zero => exact ⟨_, rfl⟩
  | succ budget => exact ⟨_, rfl⟩

section

variable {budget : Nat} {scope : Scope} {follow : List Spelling → Prop}

theorem reads_member {m : MemberText} (h : m.Readable budget) :
    Reads (statement budget scope) m.spelling follow (Stated m.Says) := by
  obtain ⟨block, hblock⟩ := statement_eq budget scope
  rw [hblock]
  cases m with
  | constant name type => exact reads_constant h.2.1.reads h.2.1.heads h.2.2
  | definition name decorators d =>
      obtain ⟨-, hdecorators, hd, hplain, hnesting⟩ := h
      exact reads_definition hdecorators
        (fun w hw => (hd.types w hw).reads budget (hnesting w hw)) hplain

theorem MemberText.kind_spelling (m : MemberText) (more : List Spelling) :
    (headSpelling (m.spelling ++ more)).1 ∈ [TokenKind.ident, .atSign, .kwDef] := by
  cases m with
  | constant => simp [spelling]
  | definition name decorators d => cases decorators <;> simp [spelling]

theorem forall₂_stated {ι : Type} {R : ι → Stmt → Prop} {is : List ι} {read : List (Option Stmt)}
    (h : List.Forall₂ (fun i => Stated (R i)) is read) :
    List.Forall₂ R is (read.filterMap id) := by
  induction h with
  | nil => exact .nil
  | cons hs _ ih =>
      obtain ⟨statement, rfl, hsays⟩ := hs
      exact .cons hsays ih

theorem reads_classBody {members : List MemberText} (h : ∀ m ∈ members, m.Readable budget) :
    Reads (blockOf (statement budget .classBody))
      (sign .newline :: sign .indent :: (classBodySpelling members ++ [sign .dedent])) follow
      (List.Forall₂ MemberText.Says members) := by
  cases members with
  | nil =>
      obtain ⟨block, hblock⟩ := statement_eq budget .classBody
      have hpass : ∀ i ∈ [()], Reads (statement budget .classBody) [sign .kwPass, sign .newline]
          (fun _ => True) (· = none) := by
        intro _ _
        rw [hblock]
        exact reads_pass
      have hall : Reads (blockOf (statement budget .classBody))
          (sign .newline :: sign .indent :: ([()].flatMap (fun _ => [sign .kwPass, sign .newline]) ++
            [sign .dedent])) follow _ := reads_blockOf hpass fun _ _ s => by simp
      refine hall.mono (fun _ hs => hs) fun body hbody => ?_
      obtain ⟨read, hread, rfl⟩ := hbody
      rw [eq_map_of_forall₂ (f := fun _ => none) hread]
      exact .nil
  | cons first rest =>
      have hkind : ∀ m ∈ first :: rest, ∀ s,
          (headSpelling (MemberText.spelling m ++ s)).1 ∉ [TokenKind.dedent, .endOfFile] := by
        intro m _ s he
        have hk := m.kind_spelling s
        revert hk he
        generalize (headSpelling (m.spelling ++ s)).1 = kind
        cases kind <;> decide
      have hmember : ∀ m ∈ first :: rest, Reads (statement budget .classBody)
          (MemberText.spelling m) (fun _ => True) (Stated m.Says) :=
        fun m hm => reads_member (h m hm)
      have hall : Reads (blockOf (statement budget .classBody)) _ follow _ :=
        reads_blockOf hmember hkind
      refine hall.mono (fun _ hs => hs) fun body hbody => ?_
      obtain ⟨read, hread, rfl⟩ := hbody
      exact forall₂_stated hread

theorem reads_stmt {s : StmtText} (h : s.Readable) :
    Reads (statement nestingLimit .module) s.spelling follow (Stated s.Says) := by
  cases s with
  | importModule module => exact reads_importModule h
  | importFrom module members =>
      obtain ⟨⟨spellings, hs⟩, hne, -⟩ := h
      rw [StmtText.spelling, hs.spell]
      exact reads_importFrom hs hne
  | synonym name type => exact reads_alias h.2.1.reads h.2.1.heads h.2.2
  | typeVariable name constraints =>
      obtain ⟨hn, hq, hc⟩ := h
      have hall : Reads (statement nestingLimit .module)
          (StmtText.typeVariable name constraints).spelling follow _ :=
        reads_typeVar (fun w hw => (hc w hw).reads) fun w hw => (hc w hw).heads
      rwa [unquote_literal hq hn.ne_nil] at hall
  | classDef name args members =>
      exact reads_classDef (fun a ha => (h.2.1 a ha).1.reads) (fun a ha => (h.2.1 a ha).1.heads)
        (reads_classBody h.2.2)
  | member m => exact reads_member h

theorem StmtText.kind_spelling (s : StmtText) (more : List Spelling) :
    (headSpelling (s.spelling ++ more)).1 ∈
      [TokenKind.kwImport, .kwFrom, .kwClass, .ident, .atSign, .kwDef] := by
  cases s with
  | member m =>
      have hk := m.kind_spelling more
      simp only [List.mem_cons, List.not_mem_nil, or_false] at hk ⊢
      tauto
  | _ => simp [spelling]

end

end Grammar

end TypeStub
