import TypeStub.Proofs.Ensures
import TypeStub.Proofs.Grammar.Parsed
import TypeStub.Proofs.Grammar.Scoped

-- The place of a statement is that of its first word, and of a definition that of its `def`.
namespace TypeStub

open TypeStub.Parser TypeStub.Grammar

-- The kind of token whose place a statement has.
def Stmt.opening : Stmt → TokenKind
  | .definition _ _ => .kwDef
  | .classDef _ _ _ _ => .kwClass
  | .conditional _ isElif _ _ _ => if isElif then .kwElif else .kwIf
  | .assign _ _ _ | .typeVar _ _ _ _ _ => .ident
  | .importModules _ _ => .kwImport
  | .importFrom _ _ _ | .importAll _ _ => .kwFrom

-- A statement that opens with one of these tokens.
def Stmt.OpensIn (source : List Token) (statement : Stmt) : Prop :=
  ∃ t ∈ source, t.kind = statement.opening ∧ statement.place = t.place

-- So it is with the statement and with all statements inside it.
def Stmt.Opened (source : List Token) (statement : Stmt) : Prop :=
  ∀ inner ∈ statement.nested, inner.OpensIn source

def Stmt.AllOpened (source : List Token) (body : List Stmt) : Prop :=
  ∀ statement ∈ body, statement.Opened source

namespace Stmt

variable {source : List Token} {thenBody elseBody body : List Stmt}

theorem opened_simple {statement : Stmt} (hn : statement.nested = [statement])
    (h : statement.OpensIn source) : statement.Opened source := by
  rw [Opened, hn]
  exact List.forall_mem_singleton.mpr h

theorem AllOpened.nestedAll (h : AllOpened source body) :
    ∀ inner ∈ Stmt.nestedAll body, inner.OpensIn source := by
  intro inner hi
  obtain ⟨statement, hm, hi⟩ := mem_nestedAll.mp hi
  exact h statement hm inner hi

theorem opened_classDef {place : Place} {name : Text} {args : List ClassArg}
    (h : (Stmt.classDef place name args body).OpensIn source) (hb : AllOpened source body) :
    (Stmt.classDef place name args body).Opened source :=
  List.forall_mem_cons.mpr ⟨h, hb.nestedAll⟩

theorem opened_conditional {place : Place} {isElif : Bool} {condition : Expr}
    (h : (Stmt.conditional place isElif condition thenBody elseBody).OpensIn source)
    (ht : AllOpened source thenBody) (he : AllOpened source elseBody) :
    (Stmt.conditional place isElif condition thenBody elseBody).Opened source :=
  List.forall_mem_cons.mpr ⟨h, List.forall_mem_append.mpr ⟨ht.nestedAll, he.nestedAll⟩⟩

end Stmt

namespace Grammar

-- The tokens of a source that are still to be read.
structure Remaining (source tokens : List Token) : Prop where
  stream : Stream tokens
  suffix : tokens <:+ source

-- A parser that gives such a result where it stands inside a source and the tokens ahead are such.
def Finds {α : Type} (source : List Token) (ahead : List Token → Prop) (p : Parser α)
    (Q : α → Prop) : Prop :=
  ∀ ⦃tokens : List Token⦄ ⦃a : α⦄ ⦃rest : List Token⦄, Remaining source tokens → ahead tokens →
    p tokens = .ok a rest → Q a ∧ Remaining source rest

section

variable {α β : Type} {source tokens rest : List Token} {ahead : List Token → Prop} {p : Parser α}
  {Q : α → Prop}

theorem Remaining.leaves (h : Remaining source tokens) (hl : Parser.Leaves tokens rest) :
    Remaining source rest := by
  obtain ⟨taken, rfl, htaken⟩ := hl
  exact ⟨h.stream.leaves ⟨taken, rfl, htaken⟩, (List.suffix_append taken rest).trans h.suffix⟩

theorem Remaining.head_mem (h : Remaining source tokens) : tokens.headD Token.stop ∈ source := by
  obtain ⟨t, more, rfl, -⟩ := h.stream.cons_of
  exact h.suffix.subset List.mem_cons_self

theorem finds_of_yields (h : Yields ahead p Q) : Finds source ahead p Q := by
  intro tokens a rest hr hp hrun
  obtain ⟨hq, hl⟩ := h.ok hr.stream hp hrun
  exact ⟨hq, hr.leaves hl⟩

theorem Finds.pure {a : α} (h : Q a) : Finds source ahead (Pure.pure a) Q := by
  intro tokens a' rest hr _ hrun
  obtain ⟨rfl, rfl⟩ := (EStateM.Result.ok.injEq ..).mp hrun
  exact ⟨h, hr⟩

theorem Finds.bind {f : α → Parser β} {R : β → Prop} (hp : Finds source ahead p Q)
    (hf : ∀ a, Q a → Finds source Anywhere (f a) R) : Finds source ahead (p >>= f) R := by
  intro tokens b rest hr ha hrun
  obtain ⟨a, middle, hfirst, hrest⟩ := bind_ok hrun
  obtain ⟨hq, hm⟩ := hp hr ha hfirst
  exact hf a hq hm trivial hrest

-- What comes after a parser that takes no statement.
theorem Finds.after {f : α → Parser β} {R : β → Prop} (hp : Yields ahead p Q)
    (hf : ∀ a, Finds source Anywhere (f a) R) : Finds source ahead (p >>= f) R :=
  .bind (finds_of_yields hp) fun a _ => hf a

theorem Finds.ite {c : Prop} [Decidable c] {q : Parser α} (hp : c → Finds source ahead p Q)
    (hq : ¬c → Finds source ahead q Q) : Finds source ahead (if c then p else q) Q := by
  split
  · exact hp ‹_›
  · exact hq ‹_›

theorem Finds.ofKind {kind : TokenKind}
    (hf : ∀ t ∈ source, t.kind = kind → Finds source (Ahead t) p Q) :
    Finds source (fun tokens => (tokens.headD Token.stop).kind = kind) p Q :=
  fun _ _ _ hr hk hrun => hf _ hr.head_mem hk hr rfl hrun

theorem Finds.peek {f : Token → Parser α} (hf : ∀ t ∈ source, Finds source (Ahead t) (f t) Q) :
    Finds source ahead (Parser.peek >>= f) Q := by
  intro tokens a rest hr _ hrun
  rw [peek_bind] at hrun
  exact hf _ hr.head_mem hr rfl hrun

theorem Finds.next {t : Token} (ht : t.Takeable) {f : Token → Parser α}
    (hf : Finds source Anywhere (f t) Q) : Finds source (Ahead t) (Parser.next >>= f) Q := by
  intro tokens a rest hr ha hrun
  obtain ⟨first, more, rfl, -⟩ := hr.stream.cons_of
  obtain rfl : first = t := ha
  exact hf (hr.leaves (.cons ht more)) trivial hrun

theorem Finds.unexpected (expected : List TokenKind) :
    Finds source ahead (Parser.unexpected expected) Q := finds_of_yields (yields_unexpected expected)

theorem Finds.unexpected_bind (expected : List TokenKind) {f : β → Parser α} :
    Finds source ahead (Parser.unexpected expected >>= f) Q :=
  finds_of_yields (yields_unexpected_bind expected)

theorem finds_expect {kind : TokenKind} (hk : kind.isTakeable = true) :
    Finds source ahead (expect kind) fun t => t ∈ source ∧ t.kind = kind := by
  refine .peek fun t ht => ?_
  intro tokens a rest hr ha hrun
  obtain ⟨first, more, rfl, -⟩ := hr.stream.cons_of
  obtain rfl : first = t := ha
  obtain ⟨found, middle, haccept, hrest⟩ := bind_ok hrun
  obtain ⟨hrun, hkind⟩ | hrun := accept_leaves kind (t := first) more
  · rw [hrun] at haccept
    obtain ⟨rfl, rfl⟩ := (EStateM.Result.ok.injEq ..).mp haccept
    obtain ⟨rfl, rfl⟩ := (EStateM.Result.ok.injEq ..).mp hrest
    exact ⟨⟨ht, hkind⟩, hr.leaves (.cons (.of_kind hkind hk) _)⟩
  · rw [hrun] at haccept
    obtain ⟨rfl, rfl⟩ := (EStateM.Result.ok.injEq ..).mp haccept
    cases hrest

theorem finds_repeatUntil {stop : Parser Bool} {item : Parser α} {further : List Token → Prop}
    (hs : Yields Anywhere stop fun _ => True)
    (hgo : ∀ tokens rest, stop tokens = .ok false rest → further rest)
    (hi : Finds source further item Q) :
    Finds source ahead (repeatUntil stop item) fun as => ∀ a ∈ as, Q a := by
  intro tokens as rest hr h1 hrun
  clear h1
  have hstopped : ∀ {tokens rest : List Token} {b : Bool}, Remaining source tokens →
      stop tokens = .ok b rest → Remaining source rest :=
    fun hr h => hr.leaves (hs.ok hr.stream trivial h).2
  fun_induction repeatUntil stop item tokens generalizing as rest with
  | case1 => simp at hrun
  | case2 tokens last hstop =>
      obtain ⟨rfl, rfl⟩ := (EStateM.Result.ok.injEq ..).mp hrun
      exact ⟨by simp, hstopped hr hstop⟩
  | case3 => simp at hrun
  | case4 => simp at hrun
  | case5 tokens middle hstop a left hitem hl as' last hrest ih =>
      obtain ⟨rfl, rfl⟩ := (EStateM.Result.ok.injEq ..).mp hrun
      obtain ⟨ha, hleft⟩ := hi (hstopped hr hstop) (hgo _ _ hstop) hitem
      obtain ⟨has, hlast⟩ := ih hleft hrest
      exact ⟨List.forall_mem_cons.mpr ⟨ha, has⟩, hlast⟩
  | case6 tokens middle hstop a left hitem hl =>
      obtain ⟨rfl, rfl⟩ := (EStateM.Result.ok.injEq ..).mp hrun
      obtain ⟨ha, hleft⟩ := hi (hstopped hr hstop) (hgo _ _ hstop) hitem
      exact ⟨by simpa using ha, hleft⟩

end

section

variable {source : List Token} {ahead : List Token → Prop} {T C : Expr → Prop}
  {type condition : Parser Expr} {block : Parser (List Stmt)}

theorem finds_definition (ht : ∀ pre, Yields pre type T) :
    Finds source ahead (definition type) (Stmt.Opened source) := by
  refine .after (yields_repeatUntil (.bind (yields_accept _ rfl) fun _ _ => .pure trivial)
    consumes_decorator.yields) fun decorators => ?_
  refine .bind (finds_expect rfl) fun word hw => .after (yields_expect _ rfl) fun name => ?_
  exact .after (yields_defBody ht) fun body =>
    .pure (Stmt.opened_simple rfl ⟨word, hw.1, hw.2, rfl⟩)

theorem finds_classBody (hb : ∀ ahead, Finds source ahead block (Stmt.AllOpened source)) :
    Finds source ahead (classBody block) (Stmt.AllOpened source) := by
  have hend : Finds source Anywhere (do let _ ← expect .newline; return [])
      (Stmt.AllOpened source) :=
    .after (yields_expect _ rfl) fun _ => .pure fun _ hm => absurd hm List.not_mem_nil
  refine .peek fun token _ => ?_
  split
  · exact hb _
  · exact .next (.of_kind ‹_› rfl) hend
  · exact .next (.of_kind ‹_› rfl) hend
  · exact .unexpected _

theorem finds_classDef (ht : ∀ pre, Yields pre type T)
    (hb : ∀ ahead, Finds source ahead block (Stmt.AllOpened source)) {word : Token}
    (hm : word ∈ source) (hw : word.kind = .kwClass) :
    Finds source (Ahead word) (classDef type block) (Stmt.Opened source) := by
  refine .next (.of_kind hw rfl) (.after (yields_expect _ rfl) fun name => ?_)
  refine .after (yields_classArgs ht) fun args => .after (yields_expect _ rfl) fun _ => ?_
  exact .bind (finds_classBody hb) fun body h =>
    .pure (Stmt.opened_classDef ⟨word, hm, hw, rfl⟩ h)

-- A branch after a word of this kind.
def Branch.OpensIn (source : List Token) (kind : TokenKind) (b : Branch) : Prop :=
  (∃ t ∈ source, t.kind = kind ∧ b.place = t.place) ∧ Stmt.AllOpened source b.body

theorem finds_branch (hc : ∀ pre, Yields pre condition C)
    (hb : ∀ ahead, Finds source ahead block (Stmt.AllOpened source)) {word : Token}
    {kind : TokenKind} (hm : word ∈ source) (hw : word.kind = kind) (hk : kind.isTakeable = true) :
    Finds source (Ahead word) (branch condition block) (Branch.OpensIn source kind) := by
  refine .next (.of_kind hw hk) (.after (hc _) fun e => .after (yields_expect _ rfl) fun _ => ?_)
  exact .bind (hb _) fun body h => .pure ⟨⟨word, hm, hw, rfl⟩, h⟩

theorem allOpened_chain {more : List Branch} {otherwise : List Stmt}
    (hm : ∀ b ∈ more, Branch.OpensIn source .kwElif b) (ho : Stmt.AllOpened source otherwise) :
    Stmt.AllOpened source (chain more otherwise) := by
  induction more with
  | nil => exact ho
  | cons b rest ih =>
      obtain ⟨hopens, hbody⟩ := hm b List.mem_cons_self
      have hrest := ih fun x hx => hm x (List.mem_cons_of_mem _ hx)
      exact List.forall_mem_singleton.mpr (Stmt.opened_conditional hopens hbody hrest)

theorem finds_conditional (hc : ∀ pre, Yields pre condition C)
    (hb : ∀ ahead, Finds source ahead block (Stmt.AllOpened source)) {word : Token}
    (hm : word ∈ source) (hw : word.kind = .kwIf) :
    Finds source (Ahead word) (conditional condition block) (Stmt.Opened source) := by
  refine .bind (finds_branch hc hb hm hw rfl) fun first ⟨hopens, hbody⟩ => ?_
  have hmore : Finds source Anywhere
      (repeatUntil (do return (← peek).kind != .kwElif) (branch condition block)) fun more =>
        ∀ b ∈ more, Branch.OpensIn source .kwElif b := by
    refine finds_repeatUntil (.peek fun _ _ => .pure trivial) (fun tokens rest h => ?_)
      (.ofKind fun next hn (hk : next.kind = .kwElif) => finds_branch hc hb hn hk rfl)
    rw [peek_bind] at h
    obtain ⟨hne, rfl⟩ := (EStateM.Result.ok.injEq ..).mp h
    simpa using hne
  refine .bind hmore fun more hopened => .after (yields_accept _ rfl) fun _ => ?_
  refine .ite (fun _ => .after (yields_expect _ rfl) fun _ => ?_) fun _ => ?_
  · exact .bind (hb _) fun otherwise ho =>
      .pure (Stmt.opened_conditional hopens hbody (allOpened_chain hopened ho))
  · exact .bind (.pure fun _ hm => absurd hm List.not_mem_nil) fun otherwise ho =>
      .pure (Stmt.opened_conditional hopens hbody (allOpened_chain hopened ho))

theorem finds_importModules {word : Token} (hm : word ∈ source) (hw : word.kind = .kwImport) :
    Finds source (Ahead word) importModules (Stmt.Opened source) := by
  refine .next (.of_kind hw rfl) ?_
  refine .after (yields_separated _ rfl fun _ => consumes_importedModule.yields) fun modules => ?_
  exact .after (yields_expect _ rfl) fun _ => .pure (Stmt.opened_simple rfl ⟨word, hm, hw, rfl⟩)

theorem finds_importFrom {word : Token} (hm : word ∈ source) (hw : word.kind = .kwFrom) :
    Finds source (Ahead word) importFrom (Stmt.Opened source) := by
  refine .next (.of_kind hw rfl) (.after yields_sourceModule fun module => ?_)
  have hend : ∀ statement : Stmt, statement.Opened source → Finds source Anywhere
      (do let _ ← expect .newline; return statement) (Stmt.Opened source) :=
    fun _ h => .after (yields_expect _ rfl) fun _ => .pure h
  refine .after (yields_expect _ rfl) fun _ => .after (yields_accept _ rfl) fun _ => ?_
  refine .ite (fun _ => ?_) fun _ => ?_
  · exact .bind (.pure (Stmt.opened_simple rfl ⟨word, hm, hw, rfl⟩)) hend
  · refine .bind (finds_of_yields (.map yields_importedMembers fun names _ => ?_)) hend
    exact Stmt.opened_simple rfl ⟨word, hm, hw, rfl⟩

theorem opens_typeVar {pre : List Token → Prop} (ht : ∀ pre, Yields pre type T) {target : Token}
    (hm : target ∈ source) (hk : target.kind = .ident) {word paren : Token} (hw : word.Takeable)
    (hp : paren.Takeable) :
    Yields (fun tokens => (pre tokens ∧ Ahead word tokens) ∧ AheadNext paren tokens)
      (typeVar type target) (Stmt.Opened source) := by
  refine .nextTwo hw hp (.bind (yields_expect _ rfl) fun _ _ => ?_)
  refine .bind (yields_repeatUntil yields_constraintsEnd (ht _)) fun _ _ => ?_
  refine .bind (yields_repeatUntil yields_keywordsEnd (consumes_keywordArg ht).yields) fun _ _ => ?_
  exact .bind (yields_expect _ rfl) fun _ _ => .bind (yields_expect _ rfl) fun _ _ =>
    .pure (Stmt.opened_simple rfl ⟨target, hm, hk, rfl⟩)

-- Behind its target an assignment has no words of statements.
theorem finds_assignment (ht : ∀ pre, Yields pre type T) (scope : Scope) {target : Token}
    (hm : target ∈ source) (hk : target.kind = .ident) :
    Finds source (Ahead target) (assignment type scope) (Stmt.Opened source) := by
  have hopened : ∀ assigned,
      (Stmt.assign target.place target.text assigned).Opened source :=
    fun _ => Stmt.opened_simple rfl ⟨target, hm, hk, rfl⟩
  refine .next (.of_kind hk rfl) (finds_of_yields (.bind (yields_accept _ rfl) fun _ _ => ?_))
  refine .ite (fun _ => .bind (yields_declaration ht) fun _ _ => .pure (hopened _)) fun _ => ?_
  refine .bind (yields_accept _ rfl) fun _ _ => .ite (fun _ => ?_) fun _ => yields_unexpected_bind _
  refine .peek fun word _ => .peekNext fun paren => .ite (fun hw => ?_) fun _ => ?_
  · refine .ite (fun _ => yields_unexpected_bind _) fun _ => ?_
    exact opens_typeVar ht hm hk (.of_kind hw.1 rfl) (.of_kind hw.2.2 rfl)
  · exact .bind (yields_commentedValue ht) fun _ _ => .pure (hopened _)

theorem finds_statementWith {block : Scope → Parser (List Stmt)}
    (ht : ∀ pre, Yields pre type T) (hc : ∀ pre, Yields pre condition C)
    (hb : ∀ scope ahead, Finds source ahead (block scope) (Stmt.AllOpened source))
    (scope : Scope) :
    Finds source ahead (statementWith type condition block scope) fun s =>
      ∀ x ∈ s, Stmt.Opened source x := by
  have hsome : ∀ x, Stmt.Opened source x →
      Finds source Anywhere (Pure.pure (some x)) fun s => ∀ x ∈ s, Stmt.Opened source x :=
    fun x hx => .pure (by simpa using hx)
  have hnone : Finds source Anywhere (do let _ ← expect .newline; return none)
      fun s => ∀ x ∈ s, Stmt.Opened source x :=
    .after (yields_expect _ rfl) fun _ => .pure (by simp)
  refine .peek fun token hm => ?_
  split
  · exact .next (.of_kind ‹_› rfl) (.pure (by simp))
  · exact .bind (finds_definition ht) hsome
  · exact .bind (finds_definition ht) hsome
  · refine .ite (fun _ => .unexpected_bind _) fun _ => ?_
    exact .bind (finds_classDef ht (hb _) hm ‹_›) hsome
  · exact .bind (finds_conditional hc (hb _) hm ‹_›) hsome
  · refine .ite (fun _ => .unexpected_bind _) fun _ => ?_
    exact .bind (finds_importModules hm ‹_›) hsome
  · refine .ite (fun _ => .unexpected_bind _) fun _ => ?_
    exact .bind (finds_importFrom hm ‹_›) hsome
  · exact .next (.of_kind ‹_› rfl) hnone
  · exact .next (.of_kind ‹_› rfl) hnone
  · exact .next (.of_kind ‹_› rfl) hnone
  · exact .after consumes_ignoreComment.yields fun _ => hnone
  · exact .bind (finds_assignment ht scope hm ‹_›) hsome
  · exact .unexpected _

theorem finds_blockOf {statement : Parser (Option Stmt)}
    (hs : Finds source Anywhere statement fun s => ∀ x ∈ s, Stmt.Opened source x) :
    Finds source ahead (blockOf statement) (Stmt.AllOpened source) := by
  refine .after (yields_expect _ rfl) fun _ => .after (yields_expect _ rfl) fun _ => ?_
  refine .bind (finds_repeatUntil (yields_accept _ rfl) (fun _ _ _ => trivial) hs) fun body h => ?_
  exact .pure (forall_filterMap h)

theorem finds_statement (budget : Nat) (scope : Scope) (ahead : List Token → Prop) :
    Finds source ahead (statement budget scope) fun s => ∀ x ∈ s, Stmt.Opened source x := by
  induction budget generalizing scope ahead with
  | zero =>
      exact finds_statementWith (yields_typeExpr 0) (yields_condition 0)
        (fun _ _ => finds_of_yields yields_tooDeep) scope
  | succ budget ih =>
      exact finds_statementWith (yields_typeExpr _) (yields_condition _)
        (fun scope _ => finds_blockOf (ih scope _)) scope

theorem finds_module : Finds source Anywhere module (Stmt.AllOpened source) :=
  .bind (finds_repeatUntil yields_atEnd (fun _ _ _ => trivial) (finds_statement _ _ _))
    fun _ hb => .pure (forall_filterMap hb)

end

end Grammar

-- Every statement of a source, at any depth, has the place of a token that opens such a statement.
theorem parseSource_opened {source : Text} {body : List Stmt} (h : parseSource source = .ok body) :
    ∀ statement ∈ Stmt.nestedAll body, statement.OpensIn (tokenize (sourceLines source)) := by
  obtain ⟨rest, hmodule⟩ := module_of_parseSource h
  have hwhole : Remaining (tokenize (sourceLines source)) (tokenize (sourceLines source)) :=
    ⟨stream_tokenize source, List.suffix_rfl⟩
  exact (finds_module hwhole trivial hmodule).1.nestedAll

end TypeStub
