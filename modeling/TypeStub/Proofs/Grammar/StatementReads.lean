import TypeStub.Grammar.Statement
import TypeStub.Proofs.Grammar.TypeReads

namespace TypeStub

-- The name that a type starts with.
def Expr.headName : Expr → Text
  | .name id | .subscript (.name id) _ => id
  | _ => []

-- The first two tokens of a type that starts with a name.
def Expr.Heads (e : Expr) (spellings : List Spelling) : Prop :=
  ∃ first more, spellings = (.ident, first) :: more ∧
    (more = [] ∧ e.headName = first ∨ (headSpelling more).1 = .dot ∨
      (headSpelling more).1 = .leftBracket ∧ e.headName = first)

theorem heads_name {name : Text} (hn : DottedName name) : (Expr.name name).Heads (spell name) := by
  obtain ⟨first, more, hs, hmore⟩ := hn.spell.head
  refine ⟨first, more, hs, ?_⟩
  rcases hmore with ⟨rfl, rfl⟩ | hdot
  · exact .inl ⟨rfl, rfl⟩
  · exact .inr (.inl hdot)

theorem heads_subscript {name : Text} (hn : DottedName name) {texts : List Text}
    (h : ∀ text ∈ texts, Spells Delimited text (spell text)) (elements : List Expr) :
    (Expr.subscript (.name name) elements).Heads (spell (name ++ Grammar.bracketed texts)) := by
  have hs := hn.spell.spells.append (Grammar.spells_bracketed h)
    fun _ _ => delimited_cons (c := '[') (by simp)
  obtain ⟨first, more, hfirst, hmore⟩ := hn.spell.head
  rw [(hs.mono fun _ _ => trivial).spell, hfirst]
  refine ⟨first, _, rfl, ?_⟩
  rcases hmore with ⟨rfl, rfl⟩ | hdot
  · exact .inr (.inr ⟨rfl, rfl⟩)
  · exact .inr (.inl (headSpelling_append hdot (by simp) _))

theorem Expr.Heads.kind {e : Expr} {spellings : List Spelling} (h : e.Heads spellings)
    (s : List Spelling) : (headSpelling (spellings ++ s)).1 = .ident := by
  obtain ⟨first, more, rfl, -⟩ := h
  rfl

-- The second token of a type, or what follows it.
theorem Expr.Heads.second {e : Expr} {spellings : List Spelling} (h : e.Heads spellings)
    (s : List Spelling) : (headSpelling (spellings ++ s).tail).1 ∈ [.dot, .leftBracket] ∨
      (spellings ++ s).tail = s := by
  obtain ⟨first, more, rfl, hmore⟩ := h
  rcases hmore with ⟨rfl, -⟩ | hdot | ⟨hbracket, -⟩
  · exact .inr rfl
  · have hkind := headSpelling_append hdot (by simp) s
    exact .inl (by simp [hkind])
  · have hkind := headSpelling_append hbracket (by simp) s
    exact .inl (by simp [hkind])

namespace Parser

variable {α β : Type} {spellings : List Spelling} {follow : List Spelling → Prop} {Q : α → Prop}

-- A test that takes no token, with the same outcome wherever it stands.
theorem Reads.look {p : Parser β} (look : List Token → β) {f : β → Parser α} {b : β}
    (hp : ∀ tokens, p tokens = .ok (look tokens) tokens)
    (hb : ∀ tokens s, follow s → tokens.map Token.spelling = spellings ++ s → look tokens = b)
    (hf : Reads (f b) spellings follow Q) : Reads (p >>= f) spellings follow Q := by
  intro tokens rest ht hr
  have hlook := hb (tokens ++ rest) _ hr (by rw [List.map_append, ht])
  obtain ⟨a, ha, hq⟩ := hf tokens rest ht hr
  refine ⟨a, ?_, hq⟩
  simp only [Bind.bind, EStateM.bind, hp, hlook]
  exact ha

end Parser

namespace Grammar

open TypeStub.Parser

-- A text as a type, for a parser of types.
def ReadsType (type : Parser Expr) (text : Text) (e : Expr) : Prop :=
  Reads type (spell text) (TypeEnds e) (· = e)

theorem startsIgnoreComment_false {e : Expr} {text : Text} (hh : e.Heads (spell text))
    (hi : e.headName ≠ "ignore") {comment : Token} {tokens : List Token} {s : List Spelling}
    (ht : tokens.map Token.spelling = spell text ++ s) :
    startsIgnoreComment (comment :: tokens) = false := by
  obtain ⟨first, more, hs, hmore⟩ := hh
  rw [hs, List.cons_append] at ht
  obtain ⟨word, rest, rfl, hword, hrest⟩ := List.map_eq_cons_iff.mp ht
  obtain ⟨-, htext⟩ := Prod.mk.inj hword
  have hafter : (rest.headD Token.stop).kind = (headSpelling (more ++ s)).1 := by
    rw [← hrest, headSpelling_map]
    rfl
  have hword : e.headName = first → (word.text == ("ignore" : Text)) = false := by
    rintro rfl
    rw [htext]
    exact beq_eq_false_iff_ne.mpr hi
  show (_ && _ && word.text == ("ignore" : Text) &&
    ((rest.headD Token.stop).kind == .newline || (rest.headD Token.stop).kind == .leftBracket ||
      (rest.headD Token.stop).kind == .endOfFile)) = false
  rcases hmore with ⟨-, hfirst⟩ | hdot | ⟨-, hfirst⟩
  · rw [hword hfirst, Bool.and_false, Bool.false_and]
  · rw [hafter, headSpelling_append hdot (by simp)]
    exact Bool.and_false _
  · rw [hword hfirst, Bool.and_false, Bool.false_and]

section

variable {type condition : Parser Expr} {block : Scope → Parser (List Stmt)} {scope : Scope}
  {follow : List Spelling → Prop} {name text : Text} {e : Expr}

-- A statement was read, and of such a form.
def Stated (Q : Stmt → Prop) (s : Option Stmt) : Prop := ∃ statement, s = some statement ∧ Q statement

theorem typeEnds_of_kind (kind : TokenKind) {s : List Spelling} (h : (headSpelling s).1 = kind)
    (hk : kind ∉ [.dot, .leftBracket, .kwOr, .leftParen]) : TypeEnds e s :=
  typeEnds_of_mem [kind] (by simpa using h) (by simpa using hk)

theorem reads_commented (hr : ReadsType type text e) (hh : e.Heads (spell text))
    (hi : e.headName ≠ "ignore") :
    Reads (trailingComment type) (sign .typeComment :: spell text)
      (fun s => (headSpelling s).1 = .newline) (· = some e) := by
  refine .look startsIgnoreComment (b := false) (fun _ => rfl) (fun tokens s _ ht => ?_) ?_
  · obtain ⟨comment, rest, rfl, -, ht⟩ := List.map_eq_cons_iff.mp ht
    exact startsIgnoreComment_false hh hi ht
  · refine .accepted _ ?_
    refine (hr.mono (fun s hs => ?_) fun _ h => h).bindPure fun _ h => by rw [h]
    exact typeEnds_of_kind .newline hs (by decide)

theorem reads_uncommented : Reads (trailingComment type) []
    (fun s => (headSpelling s).1 = .newline) (· = none) := by
  refine .look startsIgnoreComment (b := false) (fun _ => rfl) (fun tokens s hs ht => ?_) ?_
  · unfold startsIgnoreComment
    split
    · rw [List.nil_append] at ht
      rw [← ht] at hs
      have hk : Token.kind _ = .newline := hs
      rw [hk]
      rfl
    · rfl
  · exact .refused (fun s hs => by simp [hs]) (.pure rfl)

-- A statement that starts with a name and an equals sign.
theorem reads_assigned {spellings : List Spelling} {Q : Stmt → Prop}
    (h : ∀ target : Token, target.text = name → Reads (do
      let word ← peek
      if word.kind = .ident ∧ word.text = "TypeVar" ∧ (← peekNext).kind = .leftParen then
        if scope = .classBody then unexpected []
        typeVar type target
      else return .assign target.place target.text (← commentedValue type))
      spellings follow Q) :
    Reads (statementWith type condition block scope)
      ((.ident, name) :: sign .equal :: spellings) follow (Stated Q) := by
  refine .peek fun token ⟨s, _, ht⟩ => ?_
  have hk : token.kind = .ident := congrArg Prod.fst ht
  simp only [hk]
  have hassign : Reads (assignment type scope) ((.ident, name) :: sign .equal :: spellings)
      follow Q := by
    refine .taken fun target ht => .refused (fun _ _ => by simp [headSpelling]) ?_
    exact .accepted "=" (h target (congrArg Prod.snd ht))
  exact hassign.bindPure fun a ha => ⟨a, rfl, ha⟩

theorem reads_value_ellipsis {follow : List Spelling → Prop} :
    Reads (value type) [sign .ellipsis] follow (· = .ellipsis) := by
  refine .peek fun token ⟨s, _, ht⟩ => ?_
  have hk : token.kind = .ellipsis := congrArg Prod.fst ht
  simp only [hk]
  exact .taken fun _ _ => .pure rfl

theorem reads_constant (hr : ReadsType type text e) (hh : e.Heads (spell text))
    (hi : e.headName ≠ "ignore") :
    Reads (statementWith type condition block scope)
      ((.ident, name) :: sign .equal :: sign .ellipsis :: sign .typeComment ::
        spell text ++ [sign .newline]) follow
      (Stated fun s => ∃ place, s = .assign place name (.value .ellipsis (some e))) := by
  refine reads_assigned fun target ht => .peek fun token ⟨s, _, htoken⟩ => .peekNext fun _ _ => ?_
  have hk : token.kind = .ellipsis := congrArg Prod.fst htoken
  rw [if_neg (by simp [hk])]
  have hcomment : Reads (commentedValue type)
      ([sign .ellipsis] ++ ((sign .typeComment :: spell text) ++ [sign .newline])) follow
      (· = .value .ellipsis (some e)) := by
    have hvalue : Reads (value type) [sign .ellipsis] (fun _ => True) (· = .ellipsis) :=
      reads_value_ellipsis
    refine hvalue.bind (fun _ hv => ?_) fun _ _ => trivial
    refine (reads_commented hr hh hi).bind (fun _ hc => ?_) fun _ _ => rfl
    rw [hv, hc]
    exact .expected "\n" fun _ _ => .ite (fun h => by simp at h) fun _ => .pure rfl
  exact hcomment.bindPure fun a ha => ⟨target.place, by rw [ha, ht]⟩

-- An alias: a type after the equals sign.
theorem reads_alias (hr : ReadsType type text e) (hh : e.Heads (spell text))
    (he : isEllipsis e = false) :
    Reads (statementWith type condition block scope)
      ((.ident, name) :: sign .equal :: spell text ++ [sign .newline]) follow
      (Stated fun s => ∃ place, s = .assign place name (.value e none)) := by
  refine reads_assigned fun target ht => .peek fun token ⟨_, _, htoken⟩ =>
    .peekNext fun second ⟨s, _, hsecond⟩ => ?_
  have hnot : second.kind ≠ .leftParen := by
    have hkind : second.kind = (headSpelling ((spell text ++ [sign .newline]) ++ s).tail).1 :=
      congrArg Prod.fst hsecond
    rw [hkind, List.append_assoc]
    rcases hh.second ([sign .newline] ++ s) with hkind | htail
    · intro hparen
      rw [hparen] at hkind
      exact absurd hkind (by decide)
    · rw [htail]
      simp
  rw [if_neg fun hc => hnot hc.2.2]
  have hvalue : Reads (value type) (spell text) (TypeEnds e) (· = e) := by
    refine .peek fun token ⟨s, _, ht⟩ => ?_
    have hk : token.kind = .ident := (congrArg Prod.fst ht).trans (hh.kind s)
    simp only [hk]
    exact hr
  have hcomment : Reads (commentedValue type) (spell text ++ [sign .newline]) follow
      (· = .value e none) := by
    refine hvalue.bind (fun _ hv => ?_) fun s _ => typeEnds_of_kind .newline rfl (by decide)
    refine reads_uncommented.bind (fun _ hc => ?_) fun _ _ => rfl
    rw [hv, hc]
    exact .expected "\n" fun _ _ => .ite (fun h => by simp [he] at h) fun _ => .pure rfl
  exact hcomment.bindPure fun a ha => ⟨target.place, by rw [ha, ht]⟩

theorem reads_noAsName : Reads asName? [] (fun s => (headSpelling s).1 ≠ .kwAs) (· = none) :=
  .refused (fun _ hs => hs) (.pure rfl)

theorem reads_importModule {module : Text} (hm : DottedName module) :
    Reads (statementWith type condition block .module)
      (sign .kwImport :: spell module ++ [sign .newline]) follow
      (Stated fun s => ∃ place, s = .importModules place [⟨module, none⟩]) := by
  have hname : Reads importedModule (spell module ++ []) (fun s => (headSpelling s).1 = .newline)
      (· = ⟨module, none⟩) := by
    refine (reads_dottedName hm.spell).bind (fun name hname => ?_) fun s hs => by simp [hs]
    refine (reads_noAsName.mono (fun s hs => ?_) fun _ h => h).bindPure fun _ h => ?_
    · simp [show (headSpelling s).1 = _ from hs]
    · rw [hname, h]
  rw [List.append_nil] at hname
  have hall : Reads importModules (sign .kwImport :: spell module ++ [sign .newline]) follow
      fun s => ∃ place, s = .importModules place [⟨module, none⟩] := by
    refine .taken fun word _ => ?_
    refine (hname.separatedOne fun s hs => by simp [hs]).bind (fun _ hmodules => ?_) fun _ _ => rfl
    exact .expected "\n" fun _ _ => .pure ⟨_, by rw [hmodules]⟩
  refine .peek fun token ⟨_, _, ht⟩ => ?_
  have hk : token.kind = .kwImport := congrArg Prod.fst ht
  simp only [hk]
  exact .ite (fun hc => by simp at hc) fun _ => hall.bindPure fun s hs => ⟨s, rfl, hs⟩

-- A member that is imported, and its local name if it has one.
def memberSpelling (member : ImportedName) : List Spelling :=
  (.ident, member.name) :: member.asName.elim [] fun name => [sign .kwAs, (.ident, name)]

theorem reads_importedMember (member : ImportedName) :
    Reads importedMember (memberSpelling member) (fun s => (headSpelling s).1 ≠ .kwAs)
      (· = member) := by
  refine .expected _ fun name hn => ?_
  have hname : name.text = member.name := congrArg Prod.snd hn
  cases ha : member.asName with
  | none =>
      exact reads_noAsName.bindPure fun _ h => by rw [hname, h, ← ha]
  | some asName =>
      have has : Reads asName? [sign .kwAs, (.ident, asName)] (fun s => (headSpelling s).1 ≠ .kwAs)
          (· = some asName) := by
        refine .accepted _ ?_
        have hword : Reads (expect .ident) [(.ident, asName)]
          (fun s => (headSpelling s).1 ≠ .kwAs) (·.spelling = (.ident, asName)) := reads_expect _
        exact hword.bindPure fun token ht => by rw [show token.text = asName from congrArg Prod.snd ht]
      exact has.bindPure fun _ h => by rw [hname, h, ← ha]

theorem reads_leadingDots (n : Nat) :
    Reads leadingDots (List.replicate n (sign .dot)) (fun s => (headSpelling s).1 ≠ .dot)
      (· = List.replicate n '.') := by
  intro tokens rest ht hr
  have hdots : ∀ token ∈ tokens, (token.kind == .dot) = true := by
    intro token hm
    have hspelled : token.spelling ∈ List.replicate n (sign .dot) := ht ▸ List.mem_map_of_mem hm
    exact beq_iff_eq.mpr (congrArg Prod.fst (List.eq_of_mem_replicate hspelled))
  have htake : (tokens ++ rest).takeWhile (·.kind == .dot) = tokens := by
    rw [List.takeWhile_append_of_pos hdots]
    cases rest with
    | nil => rw [List.takeWhile_nil, List.append_nil]
    | cons token more =>
        have hk : (token.kind == .dot) = false := beq_eq_false_iff_ne.mpr hr
        rw [List.takeWhile_cons, hk, if_neg (by simp), List.append_nil]
  have hlength : tokens.length = n := by
    rw [← List.length_map (f := Token.spelling), ht, List.length_replicate]
  refine ⟨tokens.map fun _ => '.', ?_, by rw [List.map_const', hlength]⟩
  show EStateM.Result.ok _ _ = _
  rw [htake, List.drop_left]

-- The module of a from-import: a dotted name, at most two dots, or both.
inductive SourceModule : Text → List Spelling → Prop
  | named {n : Nat} {name : Text} (hn : n ≤ 2) (h : DottedName name) :
      SourceModule (List.replicate n '.' ++ name) (List.replicate n (sign .dot) ++ spell name)
  | dots {n : Nat} (hn : n ≤ 2) (h : n ≠ 0) :
      SourceModule (List.replicate n '.') (List.replicate n (sign .dot))

theorem reads_sourceModule {module : Text} {spellings : List Spelling}
    (h : SourceModule module spellings) :
    Reads sourceModule spellings (fun s => (headSpelling s).1 = .kwImport) (· = module) := by
  cases h with
  | @named n name hn h =>
      obtain ⟨first, more, hfirst, -⟩ := h.spell.head
      refine (reads_leadingDots n).bind (fun dots hd => .peek fun token ⟨s, _, ht⟩ => ?_)
        fun s _ => by simp [hfirst]
      rw [hfirst] at ht
      have hk : token.kind = .ident := congrArg Prod.fst ht
      rw [if_pos (.inl hk), hd]
      exact ((reads_dottedName h.spell).mono (fun s hs => by simp [hs]) fun _ h => h).bindPure
        fun _ h => by rw [h]
  | @dots n hn h =>
      rw [← List.append_nil (List.replicate n (sign .dot))]
      refine (reads_leadingDots n).bind (fun dots hd => .peek fun token ⟨s, hs, ht⟩ => ?_)
        fun s hs => by simp [show (headSpelling s).1 = _ from hs]
      have hk : token.kind = .kwImport := (congrArg Prod.fst ht).trans hs
      have hne : dots ≠ [] := by simp [hd, h]
      rw [if_neg (by simp [hk, hne])]
      exact .pure hd

theorem reads_importedMembers {members : List ImportedName} (hne : members ≠ []) :
    Reads importedMembers (separatedBy (sign .comma) (members.map memberSpelling))
      (fun s => (headSpelling s).1 = .newline) (· = members) := by
  obtain ⟨first, rest, rfl⟩ := List.exists_cons_of_ne_nil hne
  have hall : Reads (separated .comma importedMember)
      (separatedBy (sign .comma) ((first :: rest).map memberSpelling))
      (fun s => (headSpelling s).1 = .newline) (List.Forall₂ (fun i a => a = i) (first :: rest)) :=
    .separated (fun member _ => reads_importedMember member) (fun _ _ => by simp)
      (fun s hs => by simp [hs]) fun s hs => by simp [hs]
  refine .refused (fun s _ => ?_) (hall.mono (fun _ hs => hs) fun as has => ?_)
  · rw [List.map_cons, separatedBy, memberSpelling]
    simp
  · exact (eq_map_of_forall₂ (f := id) has).trans (List.map_id _)

theorem reads_importFrom {module : Text} {spellings : List Spelling}
    (h : SourceModule module spellings) {members : List ImportedName} (hne : members ≠ []) :
    Reads (statementWith type condition block .module)
      (sign .kwFrom :: (spellings ++ (sign .kwImport ::
        (separatedBy (sign .comma) (members.map memberSpelling) ++ [sign .newline])))) follow
      (Stated fun s => ∃ place, s = .importFrom place module members) := by
  have hall : Reads importFrom
      (sign .kwFrom :: (spellings ++ (sign .kwImport ::
        (separatedBy (sign .comma) (members.map memberSpelling) ++ [sign .newline])))) follow
      fun s => ∃ place, s = .importFrom place module members := by
    refine .taken fun word _ => (reads_sourceModule h).bind (fun _ hm => ?_) fun _ _ => rfl
    refine .expected "import" fun _ _ => ?_
    refine .refused (fun s _ => ?_) ?_
    · obtain ⟨first, rest, rfl⟩ := List.exists_cons_of_ne_nil hne
      rw [List.map_cons, separatedBy, memberSpelling]
      simp
    · have hmembers : Reads (Stmt.importFrom word.place module <$> importedMembers)
          (separatedBy (sign .comma) (members.map memberSpelling))
          (fun s => (headSpelling s).1 = .newline)
          (· = .importFrom word.place module members) :=
        (reads_importedMembers hne).map fun _ h => by rw [h]
      rw [hm]
      refine hmembers.bind (fun _ hs => ?_) fun _ _ => rfl
      exact .expected "\n" fun _ _ => .pure ⟨_, hs⟩
  refine .peek fun token hpeek => ?_
  obtain ⟨_, _, ht⟩ := hpeek
  have hk : token.kind = .kwFrom := congrArg Prod.fst ht
  simp only [hk]
  exact .ite (fun hc => by simp at hc) fun _ => hall.bindPure fun s hs => ⟨s, rfl, hs⟩

theorem startsKeyword_false {tokens : List Token} (h : (headSpelling (tokens.map
    Token.spelling).tail).1 ≠ .equal) : startsKeyword tokens = false := by
  unfold startsKeyword
  split
  · rename_i word second rest
    have hk : second.kind ≠ .equal := h
    simp [hk]
  · rfl

-- A comma before a constraint.
theorem reads_constraint : Reads constraintsEnd [sign .comma]
    (fun s => (headSpelling s).1 ≠ .rightParen ∧ (headSpelling s.tail).1 ≠ .equal) (· = false) := by
  intro tokens rest ht hr
  obtain ⟨comma, rfl, hs⟩ := List.map_eq_singleton_iff.mp ht
  have hcomma : comma.kind = .comma := congrArg Prod.fst hs
  have hparen : (rest.headD Token.stop).kind ≠ .rightParen := by
    have hk := hr.1
    rwa [headSpelling_map] at hk
  refine ⟨false, ?_, rfl⟩
  show constraintsEnd (comma :: rest) = _
  simp only [constraintsEnd, hcomma, startsKeyword_false hr.2]
  simpa using hparen

theorem reads_constraintsEnd : Reads constraintsEnd [] (fun s => (headSpelling s).1 = .rightParen)
    (· = true) := by
  intro tokens rest ht hr
  obtain rfl := List.map_eq_nil_iff.mp ht
  refine ⟨true, ?_, rfl⟩
  cases rest with
  | nil => rfl
  | cons token more =>
      have hk : token.kind = .rightParen := hr
      simp [constraintsEnd, hk]

theorem reads_typeVar {literal : Text} {parts : List (Text × Expr)}
    (hr : ∀ part ∈ parts, ReadsType type part.1 part.2)
    (hh : ∀ part ∈ parts, part.2.Heads (spell part.1)) :
    Reads (statementWith type condition block .module)
      ((.ident, name) :: sign .equal :: (.ident, "TypeVar") :: sign .leftParen ::
        (.string, literal) :: (parts.flatMap fun part => [sign .comma] ++ spell part.1) ++
          [sign .rightParen, sign .newline]) follow
      (Stated fun s => ∃ place,
        s = .typeVar place name (unquote literal) (parts.map (·.2)) []) := by
  have hitems : ∀ part ∈ parts,
      Reads type (spell part.1) (AfterItem .comma .rightParen) (· = part.2) := fun part hm =>
    (hr part hm).mono (fun s hs => typeEnds_of_mem [.comma, .rightParen]
      (by simpa [AfterItem] using hs) (by decide)) fun _ h => h
  have hstart : ∀ part ∈ parts, ∀ s, AfterItem .comma .rightParen s →
      (headSpelling (spell part.1 ++ s)).1 ≠ .rightParen ∧
        (headSpelling (spell part.1 ++ s).tail).1 ≠ .equal := by
    intro part hm s hs
    refine ⟨by rw [(hh part hm).kind]; simp, fun he => ?_⟩
    rcases (hh part hm).second s with hsecond | htail
    · rw [he] at hsecond
      exact absurd hsecond (by decide)
    · rw [htail] at he
      rcases hs with hs | hs <;> rw [he] at hs <;> exact absurd hs (by decide)
  have hconstraints : Reads (repeatUntil constraintsEnd type)
      ((parts.flatMap fun part => [sign .comma] ++ spell part.1) ++ [])
      (fun s => (headSpelling s).1 = .rightParen)
      (List.Forall₂ (fun part a => a = part.2) parts) :=
    .repeatUntil reads_constraint hitems reads_constraintsEnd hstart
      (fun _ _ _ => .inl rfl) (fun _ hs => .inr hs) (by simp)
  rw [List.append_nil] at hconstraints
  have hkeywords : Reads (repeatUntil keywordsEnd (keywordArg type)) []
      (fun s => (headSpelling s).1 = .rightParen) (· = []) :=
    .repeatNone (.refused (fun s hs => by simp [hs]) (.pure rfl))
  refine reads_assigned fun target ht => .peek fun token hpeek => .peekNext fun second hnext => ?_
  obtain ⟨_, _, htoken⟩ := hpeek
  obtain ⟨_, _, hsecond⟩ := hnext
  have hk : token.kind = .ident := congrArg Prod.fst htoken
  have hword : token.text = "TypeVar" := congrArg Prod.snd htoken
  have hparen : second.kind = .leftParen := congrArg Prod.fst hsecond
  rw [if_pos ⟨hk, hword, hparen⟩, if_neg (by simp)]
  refine .taken fun _ _ => .taken fun _ _ => .expected literal fun token hliteral => ?_
  refine hconstraints.bind (fun constraints hc => ?_) fun _ _ => rfl
  rw [← List.nil_append [sign .rightParen, sign .newline]]
  refine hkeywords.bind (fun keywords hkw => ?_) fun _ _ => rfl
  have htext : token.text = literal := congrArg Prod.snd hliteral
  refine .expected ")" fun _ _ => .expected "\n" fun _ _ => .pure ⟨target.place, ?_⟩
  rw [ht, htext, hkw, eq_map_of_forall₂ hc]

end

end Grammar

end TypeStub
