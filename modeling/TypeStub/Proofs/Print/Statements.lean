import TypeStub.Proofs.Print.Function
import TypeStub.Proofs.Print.ImportSection

-- The text of a module, statement by statement.
namespace TypeStub

open Grammar

-- The module and the member that an alias of a dotted name imports.
def Alias.imported? (a : Alias) : Option (Text × Text) :=
  match a.target with
  | .named target => Text.splitLastDot target
  | _ => none

namespace Print

def constantText (c : Constant) : MemberText := .constant c.name (written c.type)

def aliasText (a : Alias) : StmtText :=
  match a.imported? with
  | some (module, member) =>
      .importFrom module [⟨member, if member = a.name then none else some a.name⟩]
  | none => .synonym a.name (written a.target)

def typeVariableText (v : TypeVariable) : StmtText :=
  .typeVariable v.name (v.constraints.map written)

def classArgs (c : StubClass) : List ArgText :=
  c.parents.map (fun type => ⟨none, written type⟩) ++
    (c.metaclass.map fun type => (⟨some "metaclass", written type⟩ : ArgText)).toList

def classMembers (c : StubClass) : List MemberText :=
  c.constants.map constantText ++ c.methods.flatMap functionTexts

def classText (c : StubClass) : StmtText := .classDef c.name (classArgs c) (classMembers c)

-- The import statements for the names relied on.
def importTexts (uses : List Use) : List StmtText :=
  (sortedNames (uses.filterMap moduleName?)).map .importModule ++
    match sortedNames (uses.filterMap typingName?) with
    | [] => []
    | names => [.importFrom "typing" (names.map memberNamed)]

-- The statements after the imports, each kind by itself.
def declarationTexts (m : StubModule) : List (List StmtText) :=
  [m.aliases.map aliasText, m.constants.map fun c => .member (constantText c),
   m.typeVariables.map typeVariableText, m.classes.map classText,
   (m.functions.flatMap functionTexts).map .member]

def moduleTexts (m : StubModule) : List (List StmtText) :=
  (importTexts ((sections m).flatten.flatMap (·.uses)) :: declarationTexts m).filter (!·.isEmpty)

section

variable (home : Text)

theorem constant_text (c : Constant) :
    (constant home c).text = Text.joinWith "\n" (constantText c).lines := by
  show c.name ++ " = ...  # type: " ++ (type home c.type).text = _
  rw [type_text, constantText, MemberText.lines, Text.joinWith_singleton, List.append_assoc]
  rfl

theorem synonym_text (a : Alias) : (a.name ++ " = " ++ type home a.target : Piece).text =
    Text.joinWith "\n" (StmtText.synonym a.name (written a.target)).lineGroup := by
  show a.name ++ " = " ++ (type home a.target).text = _
  rw [type_text, List.append_assoc]
  exact (Text.joinWith_singleton _ _).symm

theorem alias_text {a : Alias} (h : Text.after? (home ++ ".") a.name = none) :
    (aliasLine home a).text = Text.joinWith "\n" (aliasText a).lineGroup := by
  have hplain := synonym_text home a
  unfold aliasLine aliasText Alias.imported?
  cases htarget : a.target with
  | named target =>
      rw [htarget] at hplain
      dsimp only
      cases hsplit : Text.splitLastDot target with
      | none => exact hplain
      | some pair =>
          obtain ⟨module, member⟩ := pair
          show importLine home a.name module member = _
          unfold importLine
          rw [h]
          dsimp only [Option.getD]
          refine Eq.trans ?_ (Text.joinWith_singleton _ _).symm
          split <;> simp [importedText, Text.joinWith_singleton]
  | _ =>
      rw [htarget] at hplain
      exact hplain

theorem typeVariable_text (v : TypeVariable) :
    (typeVariable home v).text = Text.joinWith "\n" (typeVariableText v).lineGroup := by
  have hconstraints : (Piece.joinWith []
      (v.constraints.map fun t => (", " ++ type home t : Piece))).text =
        (v.constraints.map written).flatMap fun w => (", " ++ w.1 : Text) := by
    rw [joinWith_text, joinWith_nil, List.map_map, List.flatMap_map, List.flatMap_def]
    refine congrArg List.flatten (List.map_congr_left fun t _ => ?_)
    show ", " ++ (type home t).text = _
    rw [type_text]
    rfl
  have hopen : (" = TypeVar('" : Text) = " = TypeVar(" ++ ['\''] := by decide
  show v.name ++ " = TypeVar('" ++ v.name ++ "'" ++ (Piece.joinWith [] _).text ++ ")" = _
  rw [hconstraints, hopen]
  refine Eq.trans ?_ (Text.joinWith_singleton _ _).symm
  simp

theorem classArgs_text (c : StubClass) :
    (classBases home c).map (·.text) = (classArgs c).map ArgText.text := by
  have hparents : (c.parents.map (type home)).map (·.text) =
      (c.parents.map fun t => (⟨none, written t⟩ : ArgText)).map ArgText.text := by
    rw [List.map_map, List.map_map]
    exact List.map_congr_left fun t _ => type_text home t
  unfold classBases classArgs
  rw [List.map_append, List.map_append, hparents]
  congr 1
  cases c.metaclass with
  | none => rfl
  | some t =>
      have hword : ("metaclass=" : Text) = "metaclass" ++ "=" := by decide
      show [("metaclass=" : Text) ++ (type home t).text] = ["metaclass" ++ "=" ++ typeText t]
      rw [type_text, hword]

theorem heritage_text (c : StubClass) :
    (if (classBases home c).isEmpty then ("" : Piece)
      else "(" ++ .joinWith ", " (classBases home c) ++ ")").text = argsText (classArgs c) := by
  have htexts := classArgs_text home c
  unfold argsText
  by_cases hnone : classBases home c = []
  · have hargs : classArgs c = [] := by
      rw [hnone] at htexts
      exact List.map_eq_nil_iff.mp htexts.symm
    rw [hnone, hargs]
    rfl
  · have hargs : classArgs c ≠ [] := by
      intro hargs
      rw [hargs] at htexts
      exact hnone (List.map_eq_nil_iff.mp htexts)
    rw [if_neg (by simpa using hnone), if_neg (by simpa using hargs), ← htexts]
    exact List.append_assoc ..

end

-- The lines of a readable text are what it is split into.
theorem splitLines_block {lines : List Text} {spellings : List Spelling} (h : Block lines spellings) :
    Text.splitLines (Text.joinWith "\n" lines) = lines := by
  have hsolid := solid_block h
  obtain ⟨line, hlast, hline⟩ := hsolid.last
  refine (splitLines_joinWith (fun line hl => (hsolid.inline line hl).1) ?_ ?_).1
  · simpa [hlast] using hline
  · rintro rfl
    simp at hlast

section

variable (home : Text) {budget : Nat}

-- Lines of a class body, each after a line break and indented.
def indentedLines (lines : List Text) : Text :=
  lines.flatMap fun line => "\n" ++ (Text.spaces 4 ++ line)

theorem indented_text {f : StubFunction} (h : ∀ m ∈ functionTexts f, m.Readable budget) :
    (indented (function home f)).text =
      indentedLines ((functionTexts f).flatMap MemberText.lines) := by
  have hindent : indentation = Text.spaces 4 := by decide
  have hlines : Text.splitLines (function home f).text =
      (functionTexts f).flatMap MemberText.lines := by
    rw [function_text]
    by_cases hne : functionTexts f = []
    · rw [hne]
      rfl
    · exact splitLines_block (.flatMap hne fun m hm => block_member (h m hm))
  unfold indented indentedLines
  rw [hlines, hindent]
  simp only [List.append_assoc]

theorem classBody_text {c : StubClass} (ho : ∀ f ∈ c.methods, functionTexts f ≠ [])
    (h : ∀ m ∈ classMembers c, m.Readable budget) :
    (if c.constants.isEmpty ∧ c.methods.isEmpty then ("\n" ++ indentation ++ "pass" : Piece)
      else .joinWith [] ((c.constants.map fun k => ("\n" ++ indentation ++ constant home k : Piece)) ++
        c.methods.map fun m => indented (function home m))).text =
      indentedLines (classBodyLines (classMembers c)) := by
  have hindent : indentation = Text.spaces 4 := by decide
  by_cases hempty : c.constants = [] ∧ c.methods = []
  · have hmembers : classMembers c = [] := by
      rw [classMembers, hempty.1, hempty.2]
      rfl
    rw [hempty.1, hempty.2, hmembers]
    rfl
  · have hmembers : classMembers c ≠ [] := by
      intro hnil
      obtain ⟨hc, hm⟩ := List.append_eq_nil_iff.mp hnil
      refine hempty ⟨List.map_eq_nil_iff.mp hc, List.eq_nil_iff_forall_not_mem.mpr fun f hf => ?_⟩
      exact ho f hf (List.flatMap_eq_nil_iff.mp hm f hf)
    have hconstants :
        ((c.constants.map fun k => ("\n" ++ indentation ++ constant home k : Piece)).map
          (·.text)).flatten =
            indentedLines ((c.constants.map constantText).flatMap MemberText.lines) := by
      rw [List.map_map, indentedLines, List.flatMap_assoc, List.flatMap_map, List.flatMap_def]
      refine congrArg List.flatten (List.map_congr_left fun k _ => ?_)
      have htext := constant_text home k
      rw [constantText, MemberText.lines, Text.joinWith_singleton] at htext
      show "\n" ++ indentation ++ (constant home k).text = _
      rw [htext, hindent, constantText, MemberText.lines, List.flatMap_singleton, List.append_assoc]
    have hmethods : ((c.methods.map fun m => indented (function home m)).map (·.text)).flatten =
        indentedLines ((c.methods.flatMap functionTexts).flatMap MemberText.lines) := by
      rw [List.map_map, List.flatMap_assoc, indentedLines, List.flatMap_assoc, List.flatMap_def]
      refine congrArg List.flatten (List.map_congr_left fun f hf => ?_)
      refine indented_text home fun m hm => h m (List.mem_append_right _ ?_)
      exact List.mem_flatMap_of_mem hf hm
    rw [if_neg (by simpa using hempty), joinWith_text, joinWith_nil, List.map_append,
      List.flatten_append, hconstants, hmethods, classBodyLines,
      if_neg (by simpa using hmembers), classMembers, List.flatMap_append, indentedLines,
      indentedLines, indentedLines, List.flatMap_append]

theorem stubClass_text {c : StubClass} (ho : ∀ f ∈ c.methods, functionTexts f ≠ [])
    (h : ∀ m ∈ classMembers c, m.Readable budget) :
    (stubClass home c).text = Text.joinWith "\n" (classText c).lineGroup := by
  have hheritage := heritage_text home c
  have hbody := classBody_text home ho h
  have hgroup : (classText c).lineGroup =
      ("class " ++ (c.name ++ (argsText (classArgs c) ++ ":"))) ::
        ((classBodyLines (classMembers c)).map (Text.spaces 4 ++ ·) ++ [[]]) := rfl
  rw [hgroup, Text.joinWith_cons_flatMap, List.flatMap_append, List.flatMap_map]
  show "class " ++ c.name ++ _ ++ ":" ++ _ ++ "\n" = _
  rw [hheritage, hbody]
  simp [indentedLines]

theorem imports_text (uses : List Use) :
    Text.joinWith "\n" (imports uses) = sectionText (importTexts uses) := by
  have hmodules : ∀ names : List Text, (names.map StmtText.importModule).flatMap
      StmtText.lineGroup = names.map fun name => ("import " ++ name : Text) := by
    intro names
    rw [List.flatMap_map, List.map_eq_flatMap]
    rfl
  unfold imports importTexts sectionText
  dsimp only
  rw [List.flatMap_append, hmodules]
  cases sortedNames (uses.filterMap typingName?) with
  | nil =>
      rw [List.flatMap_nil, List.append_nil]
  | cons name names =>
      have himported : ∀ names : List Text, (names.map memberNamed).map importedText = names := by
        intro names
        rw [List.map_map]
        exact (List.map_congr_left fun name _ => List.append_nil name).trans (List.map_id _)
      have hline : (StmtText.importFrom "typing" ((name :: names).map memberNamed)).lineGroup =
          ["from typing import " ++ Text.joinWith ", " (name :: names)] := by
        show ["from " ++ ("typing" ++ (" import " ++ Text.joinWith ", " _))] = _
        rw [himported]
        rfl
      rw [List.flatMap_singleton, hline]

-- The pieces of a section, one below the other, are its lines.
theorem section_text {ι : Type} {is : List ι} {piece : ι → Piece} {lines : ι → List Text}
    (h : ∀ i ∈ is, (piece i).text = Text.joinWith "\n" (lines i)) (hne : ∀ i ∈ is, lines i ≠ []) :
    Text.joinWith "\n" ((is.map piece).map (·.text)) = Text.joinWith "\n" (is.flatMap lines) := by
  rw [← joinWith_flatMap hne, List.map_map]
  exact congrArg _ (List.map_congr_left h)

theorem functions_text {fs : List StubFunction} (h : ∀ f ∈ fs, functionTexts f ≠ []) :
    Text.joinWith "\n" ((fs.map (function home)).map (·.text)) =
      sectionText ((fs.flatMap functionTexts).map .member) := by
  have hgroup : ∀ members : List MemberText,
      (members.map StmtText.member).flatMap StmtText.lineGroup = members.flatMap MemberText.lines := by
    intro members
    rw [List.flatMap_map]
    exact congrArg (members.flatMap ·) (funext fun m => List.append_nil m.lines)
  rw [section_text (fun f _ => function_text home f) fun f hf => ?_, sectionText, hgroup,
    List.flatMap_assoc]
  obtain ⟨m, rest, hcons⟩ := List.exists_cons_of_ne_nil (h f hf)
  rw [hcons, List.flatMap_cons]
  refine List.append_ne_nil_of_left_ne_nil ?_ _
  cases m <;> simp [MemberText.lines, DefText.lines]

end

-- A module whose text is that of its statements: no alias is printed without the module's name,
-- each function has a definition, and the lines of a class body are those of its members.
structure Spelled (m : StubModule) : Prop where
  aliases : ∀ a ∈ m.aliases, Text.after? (m.name ++ ".") a.name = none
  classes : ∀ c ∈ m.classes, (∀ f ∈ c.methods, functionTexts f ≠ []) ∧
    ∃ budget, ∀ member ∈ classMembers c, member.Readable budget
  functions : ∀ f ∈ m.functions, functionTexts f ≠ []

theorem declarations_text {m : StubModule} (h : Spelled m) :
    List.Forall₂ (fun items texts => items.isEmpty = texts.isEmpty ∧
      Text.joinWith "\n" (items.map (·.text)) = sectionText texts)
      (sections m) (declarationTexts m) := by
  have hstatements : ∀ {ι : Type} {is : List ι} {piece : ι → Piece} {text : ι → StmtText},
      (∀ i ∈ is, (piece i).text = Text.joinWith "\n" (text i).lineGroup) →
      (is.map piece).isEmpty = (is.map text).isEmpty ∧
        Text.joinWith "\n" ((is.map piece).map (·.text)) = sectionText (is.map text) := by
    intro ι is piece text htext
    refine ⟨by simp, ?_⟩
    rw [section_text htext fun i _ => lineGroup_ne_nil (text i), sectionText, List.flatMap_map]
  have hconstant : ∀ c : Constant, (constant m.name c).text =
      Text.joinWith "\n" (StmtText.member (constantText c)).lineGroup := constant_text m.name
  refine .cons (hstatements fun a ha => alias_text m.name (h.aliases a ha)) (.cons
    (hstatements fun c _ => hconstant c) (.cons (hstatements fun v _ => typeVariable_text m.name v)
    (.cons (hstatements fun c hc => ?_) (.cons ⟨?_, functions_text m.name h.functions⟩ .nil))))
  · obtain ⟨ho, budget, hreadable⟩ := h.classes c hc
    exact stubClass_text m.name ho hreadable
  · cases hf : m.functions with
    | nil => rfl
    | cons f rest =>
        obtain ⟨member, more, hcons⟩ := List.exists_cons_of_ne_nil (h.functions f (by simp [hf]))
        simp [hcons]

-- The first line of a statement is not empty.
theorem sectionText_isEmpty (statements : List StmtText) :
    (sectionText statements).isEmpty = statements.isEmpty := by
  cases statements with
  | nil => rfl
  | cons s rest =>
      have hfirst : ∃ first more, s.lineGroup = first :: more ∧ first ≠ [] := by
        cases s with
        | member m =>
            cases m with
            | constant name type => exact ⟨_, _, rfl, by simp⟩
            | definition name decorators d =>
                cases decorators with
                | nil => cases d <;> exact ⟨_, _, rfl, by simp [DefText.header]⟩
                | cons => exact ⟨_, _, rfl, by simp⟩
        | _ => exact ⟨_, _, rfl, by simp⟩
      obtain ⟨first, more, hlines, hne⟩ := hfirst
      have htext : sectionText (s :: rest) ≠ [] := by
        rw [sectionText, List.flatMap_cons, hlines, List.cons_append]
        exact joinWith_ne_nil hne
      simpa using htext

-- The text of a module is that of its imports and its declarations, an empty line between.
theorem module_text {m : StubModule} (h : Spelled m) :
    Print.module m = Text.joinWith "\n\n" ((moduleTexts m).map sectionText) := by
  have hfilter : ∀ {items : List (List Piece)} {texts : List (List StmtText)},
      List.Forall₂ (fun items texts => items.isEmpty = texts.isEmpty ∧
        Text.joinWith "\n" (items.map (·.text)) = sectionText texts) items texts →
      ((items.filter (!·.isEmpty)).map fun items => Text.joinWith "\n" (items.map (·.text))) =
        (texts.filter (!·.isEmpty)).map sectionText := by
    intro items texts hall
    induction hall with
    | nil => rfl
    | @cons section_ text _ _ hfirst _ ih =>
        rw [List.filter_cons, List.filter_cons, hfirst.1]
        split
        · rw [List.map_cons, List.map_cons, hfirst.2, ih]
        · exact ih
  have himports := imports_text ((sections m).flatten.flatMap (·.uses))
  unfold Print.module moduleTexts
  dsimp only
  rw [himports, hfilter (declarations_text h), sectionText_isEmpty, List.filter_cons]
  cases himported : importTexts ((sections m).flatten.flatMap (·.uses)) with
  | nil => rfl
  | cons first rest => rfl

end Print

end TypeStub
