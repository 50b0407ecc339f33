import TypeStub.Proofs.Grammar.DefinitionReads

namespace TypeStub.Grammar

open TypeStub.Parser

-- A class argument as it is written.
structure ArgText where
  keyword : Option Text
  type : Written

namespace ArgText

def arg (a : ArgText) : ClassArg := ⟨a.keyword, a.type.2⟩

def spelling (a : ArgText) : List Spelling :=
  (a.keyword.elim [] fun keyword => [(.ident, keyword), sign .equal]) ++ spell a.type.1

end ArgText

def argsSpelling : List ArgText → List Spelling
  | [] => []
  | args =>
      sign .leftParen :: separatedBy (sign .comma) (args.map ArgText.spelling) ++ [sign .rightParen]

section

variable {type condition : Parser Expr} {block : Scope → Parser (List Stmt)}
  {follow : List Spelling → Prop}

theorem reads_classArg {a : ArgText} (hr : ReadsType type a.type.1 a.type.2)
    (hh : a.type.2.Heads (spell a.type.1)) :
    Reads (classArg type) a.spelling (AfterItem .comma .rightParen) (· = a.arg) := by
  have htype : Reads type (spell a.type.1) (AfterItem .comma .rightParen) (· = a.type.2) :=
    hr.mono (fun s hs => typeEnds_of_mem [.comma, .rightParen] (by simpa [AfterItem] using hs)
      (by decide)) fun _ h => h
  obtain ⟨keyword, written⟩ := a
  refine .peek fun token hpeek => .peekNext fun second hnext => ?_
  obtain ⟨_, _, ht⟩ := hpeek
  obtain ⟨s, hs, hsecond⟩ := hnext
  cases keyword with
  | none =>
      have hnot : second.kind ≠ .equal := by
        rw [show second.kind = (headSpelling (spell written.1 ++ s).tail).1 from
          congrArg Prod.fst hsecond]
        intro he
        rcases hh.second s with hkind | htail
        · rw [he] at hkind
          exact absurd hkind (by decide)
        · rw [htail] at he
          rcases hs with hs | hs <;> rw [he] at hs <;> exact absurd hs (by decide)
      rw [if_neg fun hc => hnot hc.2]
      exact htype.bindPure fun _ h => by rw [h]; rfl
  | some keyword =>
      have hk : token.kind = .ident := congrArg Prod.fst ht
      have hequal : second.kind = .equal := congrArg Prod.fst hsecond
      rw [if_pos ⟨hk, hequal⟩]
      refine .taken fun word hw => .taken fun _ _ => htype.bindPure fun _ h => ?_
      rw [h, show word.text = keyword from congrArg Prod.snd hw]
      rfl

theorem reads_classArgs {args : List ArgText}
    (hr : ∀ a ∈ args, ReadsType type a.type.1 a.type.2)
    (hh : ∀ a ∈ args, a.type.2.Heads (spell a.type.1)) :
    Reads (classArgs type) (argsSpelling args) (fun s => (headSpelling s).1 = .colon)
      (· = args.map ArgText.arg) := by
  cases args with
  | nil => exact .refused (fun s hs => by simp [argsSpelling, hs]) (.pure rfl)
  | cons first rest =>
      refine .accepted "(" ?_
      have hall : Reads (itemsOrNone .rightParen [.comma, .rightParen] (classArg type))
          (separatedBy (sign .comma) ((first :: rest).map ArgText.spelling) ++ [sign .rightParen])
          (fun s => (headSpelling s).1 = .colon)
          (List.Forall₂ (fun a b => b = a.arg) (first :: rest)) := by
        refine .itemsOrNone (fun a ha => reads_classArg (hr a ha) (hh a ha)) (fun a ha s => ?_)
          (by simp)
        rw [ArgText.spelling]
        cases a.keyword with
        | none => rw [Option.elim, List.nil_append, (hh a ha).kind]; simp
        | some keyword => simp
      exact hall.mono (fun _ hs => hs) fun _ h => eq_map_of_forall₂ h

-- A block of statements, of which those that say something are kept.
theorem reads_blockOf {ι : Type} {statement : Parser (Option Stmt)} {spelled : ι → List Spelling}
    {Q : ι → Option Stmt → Prop} {is : List ι}
    (hs : ∀ i ∈ is, Reads statement (spelled i) (fun _ => True) (Q i))
    (hd : ∀ i ∈ is, ∀ s, (headSpelling (spelled i ++ s)).1 ∉ [.dedent, .endOfFile]) :
    Reads (blockOf statement)
      (sign .newline :: sign .indent :: (is.flatMap spelled ++ [sign .dedent])) follow
      fun body => ∃ read, List.Forall₂ Q is read ∧ body = read.filterMap id := by
  have hall : Reads (repeatUntil (accept .dedent) statement)
      ((is.flatMap fun i => [] ++ spelled i) ++ [sign .dedent]) follow (List.Forall₂ Q is) := by
    refine .repeatUntil (reads_refuse fun s hs => hs) hs (reads_accept _)
      (fun i hi s _ he => hd i hi s (by simp [he])) (fun _ _ _ => trivial) (fun _ _ => trivial)
      (fun i hi he => ?_)
    have hempty := hd i hi []
    rw [List.nil_append] at he
    rw [he] at hempty
    exact hempty (by simp [headSpelling])
  refine .expected "\n" fun _ _ => .expected "<INDENT>" fun _ _ => ?_
  exact hall.bindPure fun read h => ⟨read, h, rfl⟩

theorem reads_classDef {name : Text} {args : List ArgText} {body : List Spelling}
    {R : List Stmt → Prop} (hr : ∀ a ∈ args, ReadsType type a.type.1 a.type.2)
    (hh : ∀ a ∈ args, a.type.2.Heads (spell a.type.1))
    (hb : Reads (block .classBody) (sign .newline :: body) follow R) :
    Reads (statementWith type condition block .module)
      (sign .kwClass :: (.ident, name) :: (argsSpelling args ++
        (sign .colon :: sign .newline :: body))) follow
      (Stated fun s => ∃ place statements,
        s = .classDef place name (args.map ArgText.arg) statements ∧ R statements) := by
  have hbody : Reads (classBody (block .classBody)) (sign .newline :: body) follow R := by
    refine .peek fun token ⟨_, _, ht⟩ => ?_
    have hk : token.kind = .newline := congrArg Prod.fst ht
    simp only [hk]
    exact hb
  have hall : Reads (classDef type (block .classBody))
      (sign .kwClass :: (.ident, name) :: (argsSpelling args ++
        (sign .colon :: sign .newline :: body))) follow
      fun s => ∃ place statements,
        s = .classDef place name (args.map ArgText.arg) statements ∧ R statements := by
    refine .taken fun word _ => .expected name fun token hn => ?_
    refine (reads_classArgs hr hh).bind (fun _ hargs => ?_) fun _ _ => rfl
    refine .expected ":" fun _ _ => hbody.bindPure fun statements hs =>
      ⟨word.place, statements, ?_, hs⟩
    rw [hargs, show token.text = name from congrArg Prod.snd hn]
  refine .peek fun token ⟨_, _, ht⟩ => ?_
  have hk : token.kind = .kwClass := congrArg Prod.fst ht
  simp only [hk]
  exact .ite (fun hc => by simp at hc) fun _ => hall.bindPure fun s hs => ⟨s, rfl, hs⟩

theorem reads_pass {scope : Scope} :
    Reads (statementWith type condition block scope) [sign .kwPass, sign .newline] follow
      (· = none) := by
  refine .peek fun token ⟨_, _, ht⟩ => ?_
  have hk : token.kind = .kwPass := congrArg Prod.fst ht
  simp only [hk]
  exact .taken fun _ _ => .expected "\n" fun _ _ => .pure rfl

end

end TypeStub.Grammar
