import TypeStub.Proofs.Build.Reread
import TypeStub.Proofs.Load.Canonical
import TypeStub.Proofs.Load.Unique

-- To load the text of a module.
namespace TypeStub

open Print Grammar

namespace Grammar

theorem MemberText.Says.flat {text : MemberText} {statement : Stmt} (h : text.Says statement)
    (target : Target) (path : Path) (names : Names) :
    Live.reachedStmt target path statement = [] ∧
      Live.flattenStmt target statement = [statement] ∧
      Live.declareStmt names statement = names := by
  cases text <;> obtain ⟨place, rfl⟩ := h <;> exact ⟨rfl, rfl, rfl⟩

theorem forall₂_says_flat {texts : List MemberText} {body : List Stmt}
    (h : List.Forall₂ MemberText.Says texts body) (target : Target) (path : Path) (position : Nat)
    (names : Names) : Live.reached target path position body = [] ∧
      Live.flatten target body = body ∧ Live.declare names body = names := by
  induction h generalizing position with
  | nil => exact ⟨rfl, rfl, rfl⟩
  | cons hfirst _ ih =>
      obtain ⟨hr, hf, hd⟩ := hfirst.flat target (position :: path) names
      obtain ⟨hrs, hfs, hds⟩ := ih (position + 1)
      rw [Live.reached, Live.flatten, Live.declare, hr, hf, hd, hrs, hfs]
      exact ⟨rfl, rfl, hds⟩

namespace StmtText

def className? : StmtText → Option Text
  | classDef name _ _ => some name
  | _ => none

def variableName? : StmtText → Option Text
  | typeVariable name _ => some name
  | _ => none

-- No statement of a text is conditional, and a class or a type variable declares its name.
theorem Says.flat {text : StmtText} {statement : Stmt} (h : text.Says statement) (target : Target)
    (path : Path) (names : Names) :
    Live.reachedStmt target path statement = [] ∧
      Live.flattenStmt target statement = [statement] ∧
      Live.declareStmt names statement = { names with
        classes := text.className?.toList ++ names.classes
        typeVars := text.variableName?.toList ++ names.typeVars } := by
  cases text with
  | classDef name args members =>
      obtain ⟨place, body, rfl, hbody⟩ := h
      obtain ⟨hr, hf, hd⟩ := forall₂_says_flat hbody target path.classBody 0 (names.addClass name)
      rw [Live.reachedStmt, Live.flattenStmt, Live.declareStmt, hr, hf, hd]
      exact ⟨rfl, rfl, rfl⟩
  | member text => exact MemberText.Says.flat h target path names
  | _ => obtain ⟨place, rfl⟩ := h; exact ⟨rfl, rfl, rfl⟩

end StmtText

theorem flat_of_says {texts : List StmtText} {body : List Stmt}
    (h : List.Forall₂ StmtText.Says texts body) (target : Target) (path : Path) (position : Nat)
    (names : Names) : Live.reached target path position body = [] ∧
      Live.flatten target body = body ∧
      Live.declare names body = { names with
        classes := (texts.filterMap StmtText.className?).reverse ++ names.classes
        typeVars := (texts.filterMap StmtText.variableName?).reverse ++ names.typeVars } := by
  induction h generalizing position names with
  | nil => exact ⟨rfl, rfl, rfl⟩
  | @cons text statement rest body hfirst _ ih =>
      obtain ⟨hr, hf, hd⟩ := hfirst.flat target (position :: path) names
      obtain ⟨hrs, hfs, hds⟩ := ih (position + 1) (Live.declareStmt names statement)
      have hpick : ∀ (pick : StmtText → Option Text) (names : List Text),
          ((text :: rest).filterMap pick).reverse ++ names =
            (rest.filterMap pick).reverse ++ ((pick text).toList ++ names) := by
        intro pick names
        rw [List.filterMap_cons]
        cases pick text <;> simp
      rw [Live.reached, Live.flatten, Live.declare, hr, hf, hrs, hfs, hds, hd, hpick, hpick]
      exact ⟨rfl, rfl, rfl⟩

end Grammar

namespace Load

open Declare Build

section

variable {m : StubModule} (hs : m.Shaped Ty.Canonical) (hd : Distinct m) (h : m.Told)

-- The first pass finds the names of the module.
theorem tree_module {body : List Stmt} (hb : List.Forall₂ StmtText.Says (moduleTexts m).flatten body)
    (target : Target) : Prescan.tree true target body = .ok ⟨m.declaredNames, []⟩ := by
  obtain ⟨hr, hf, hn⟩ := flat_of_says hb target [] 0 (Names.empty true)
  have hfailure : Live.firstFailure? target body = none := by
    rw [Live.firstFailure?, hr]
    rfl
  have hpicked : ∀ pick : StmtText → Option Text, (∀ module, pick (.importModule module) = none) →
      (∀ module members, pick (.importFrom module members) = none) →
      (∀ name type, pick (.synonym name type) = none) → (∀ member, pick (.member member) = none) →
      (moduleTexts m).flatten.filterMap pick =
        (m.typeVariables.map typeVariableText).filterMap pick ++
          (m.classes.map classText).filterMap pick := by
    intro pick hmodule hfrom hsynonym hmember
    have himports : ∀ uses, (importTexts uses).filterMap pick = [] := by
      intro uses
      rw [List.filterMap_eq_nil_iff]
      intro text ht
      rcases List.mem_append.mp ht with ht | ht
      · obtain ⟨name, -, rfl⟩ := List.mem_map.mp ht
        exact hmodule name
      · split at ht
        · cases ht
        · obtain rfl := List.mem_singleton.mp ht
          exact hfrom _ _
    have haliases : (m.aliases.map aliasText).filterMap pick = [] := by
      rw [List.filterMap_eq_nil_iff, List.forall_mem_map]
      intro a _
      unfold aliasText
      split
      · exact hfrom _ _
      · exact hsynonym _ _
    rw [moduleTexts, List.flatten_filter_not_isEmpty]
    simp only [declarationTexts, List.flatten_cons, List.flatten_nil, List.append_nil,
      List.filterMap_append, himports, haliases, List.nil_append, List.filterMap_map,
      Function.comp_def, hmember]
    simp
  have hclasses : (moduleTexts m).flatten.filterMap StmtText.className? =
      m.classes.map (·.name) := by
    rw [hpicked _ (fun _ => rfl) (fun _ _ => rfl) (fun _ _ => rfl) fun _ => rfl]
    simp [List.filterMap_map, Function.comp_def, typeVariableText, classText, StmtText.className?]
  have hvariables : (moduleTexts m).flatten.filterMap StmtText.variableName? =
      m.typeVariables.map (·.name) := by
    rw [hpicked _ (fun _ => rfl) (fun _ _ => rfl) (fun _ _ => rfl) fun _ => rfl]
    simp [List.filterMap_map, Function.comp_def, typeVariableText, classText,
      StmtText.variableName?]
  rw [Live.tree_eq, hfailure, hr, hf, hn, hclasses, hvariables]
  simp only [Names.empty, List.append_nil]
  rfl

-- The items that a module is read as, but for the lines of its classes.
def itemsOf (m : StubModule) : List Item :=
  m.aliases.map (fun a => Item.synonym a.noneLast) ++
    (m.constants.map (fun c => Item.constant c.noneLast) ++
      (m.typeVariables.map (fun v => Item.typeVariable v.noneLast) ++
        (m.classes.map (fun c => Item.classDef 0 c.noneLast) ++
          ((m.functions.map StubFunction.noneLast).flatMap definitionsOf).map Item.definition)))

-- What the items of a module are, kind by kind.
theorem picks_itemsOf :
    (itemsOf m).filterMap Item.synonym? = m.noneLast.aliases ∧
    (itemsOf m).filterMap Item.constant? = m.noneLast.constants ∧
    (itemsOf m).filterMap Item.typeVariable? = m.noneLast.typeVariables ∧
    (itemsOf m).filterMap Item.class? = m.noneLast.classes ∧
    (itemsOf m).filterMap Item.definition? = m.noneLast.functions.flatMap definitionsOf := by
  refine ⟨?_, ?_, ?_, ?_, ?_⟩ <;>
    simp [itemsOf, StubModule.noneLast, List.filterMap_append, List.filterMap_map,
      Function.comp_def, Item.synonym?, Item.constant?, Item.typeVariable?, Item.class?,
      Item.definition?]

include hs hd in
theorem validate_module (name : Text) (lines : List (Text × Int32)) :
    validate ⟨{ m.noneLast with name := name }, lines⟩ = .ok () := by
  have hmembers : ∀ c : StubClass, Unique.memberNames c.noneLast = Unique.memberNames c := by
    intro c
    simp [Unique.memberNames, StubClass.noneLast, Constant.noneLast, StubFunction.noneLast,
      Function.comp_def]
  have hnames : Unique.topLevelNames { m.noneLast with name := name } = Unique.topLevelNames m := by
    simp [Unique.topLevelNames, StubModule.noneLast, Constant.noneLast, StubFunction.noneLast,
      StubClass.noneLast, Alias.noneLast, TypeVariable.noneLast, Function.comp_def]
  obtain ⟨htop, hclasses⟩ := (distinct_iff hs.topLevel_ne_nil).mp hd
  have hnone : Unique.fault? lines { m.noneLast with name := name } = none := by
    rw [Unique.fault?_eq_none_iff, hnames]
    refine ⟨htop, ?_⟩
    show ∀ c ∈ m.classes.map StubClass.noneLast, _
    rw [List.forall_mem_map]
    intro c hc
    rw [hmembers]
    exact hclasses c hc
  exact validate_eq_ok.mpr hnone

include hs hd h

theorem methods_nodup : ∀ c ∈ m.classes, (c.methods.map (·.name)).Nodup := by
  intro c hc
  have hne : ∀ name ∈ c.methods.map (·.name), name ≠ [] := by
    rw [List.forall_mem_map]
    exact fun f hf => ((shaped_classes hs h c hc).methods f hf).1.name.ne_nil
  refine List.nodup_iff_count_le_one.mpr fun name => ?_
  by_contra hcount
  have hm : name ∈ c.methods.map (·.name) := List.count_pos_iff.mp (by omega)
  refine hne name hm (hd.members c hc name ?_)
  rw [Unique.memberNames, List.count_append]
  omega

theorem addAll_module : AddAll m.declaredNames (moduleTexts m).flatten (itemsOf m) m.namesAfter := by
  have hconstants : List.Forall₂ (fun text item => Adds m.namesAfter text [item] m.namesAfter)
      (m.constants.map fun c => .member (constantText c))
      (m.constants.map fun c => .constant c.noneLast) := by
    simp only [List.forall₂_map_left_iff, List.forall₂_map_right_iff, List.forall₂_same]
    exact fun c hc => (memberAdds_constant (hs.constants c hc).2 (h.constants c hc)).ofModule
  have hvariables : List.Forall₂ (fun text item => Adds m.namesAfter text [item] m.namesAfter)
      (m.typeVariables.map typeVariableText)
      (m.typeVariables.map fun v => .typeVariable v.noneLast) := by
    simp only [List.forall₂_map_left_iff, List.forall₂_map_right_iff, List.forall₂_same]
    exact fun v hv => adds_typeVariable (hs.typeVariables v hv).2 (h.typeVariables v hv)
  have hclasses : List.Forall₂ (fun text item => Adds m.namesAfter text [item] m.namesAfter)
      (m.classes.map classText) (m.classes.map fun c => .classDef 0 c.noneLast) := by
    simp only [List.forall₂_map_left_iff, List.forall₂_map_right_iff, List.forall₂_same]
    exact fun c hc => adds_class (shaped_classes hs h c hc) (h.classes c hc)
      (methods_nodup hs hd h c hc)
  have hfunctions : List.Forall₂ (fun text item => Adds m.namesAfter text [item] m.namesAfter)
      ((m.functions.flatMap functionTexts).map .member)
      (((m.functions.map StubFunction.noneLast).flatMap definitionsOf).map Item.definition) := by
    rw [List.forall₂_map_left_iff]
    exact (memberAdds_functions hs.functions h.functions).imp fun _ _ hmember => hmember.ofModule
  rw [moduleTexts, List.flatten_filter_not_isEmpty, itemsOf,
    ← List.append_nil (((m.functions.map StubFunction.noneLast).flatMap definitionsOf).map _)]
  simp only [declarationTexts, List.flatten_cons, List.flatten_nil]
  exact .imports (.aliases (fun a ha => (hs.aliases a ha).2) h.aliases (.each hconstants
    (.each hvariables (.each hclasses (.each hfunctions (.nil _))))))

theorem moduleOf_module {body : List Stmt}
    (hb : List.Forall₂ StmtText.Says (moduleTexts m).flatten body) (name : Text) :
    ∃ lines, moduleOf name [] body ⟨m.declaredNames, .none⟩ =
      .ok ⟨{ m.noneLast with name := name }, lines⟩ ⟨m.namesAfter, .none⟩ := by
  obtain ⟨found, hrun, halike⟩ := addAll_module hs hd h body hb 0
  obtain ⟨hsynonyms, hconstants, hvariables, hclasses, hdefinitions⟩ := @picks_itemsOf m
  have hpick : ∀ {α : Type} (pick : Item → Option α),
      (∀ n k c, pick (.classDef n c) = pick (.classDef k c)) →
        found.filterMap pick = (itemsOf m).filterMap pick :=
    fun _ hline => filterMap_itemsAlike hline halike
  have hnames : (m.noneLast.functions.map (·.name)).Nodup := by
    have htop := hd.topLevel
    simp only [Unique.topLevelNames, List.nodup_append] at htop
    rw [StubModule.noneLast, List.map_map]
    exact htop.1.1.1.2.1
  have hshaped : ∀ f ∈ m.noneLast.functions, f.Shaped := by
    rw [StubModule.noneLast, List.forall_mem_map]
    exact fun f hf => (hs.functions f hf).1.noneLast
  have hmerge : Merge.moduleFunctions (found.filterMap Item.definition?) =
      .ok m.noneLast.functions := by
    rw [hpick _ fun _ _ _ => rfl, hdefinitions]
    exact Merge.moduleFunctions_definitions hshaped hnames
  refine ⟨found.filterMap Item.classLine?, ?_⟩
  unfold moduleOf
  simp only [Bind.bind, EStateM.bind, hrun, hmerge]
  show EStateM.Result.ok _ _ = _
  rw [hpick Item.synonym? fun _ _ _ => rfl, hpick Item.constant? fun _ _ _ => rfl,
    hpick Item.typeVariable? fun _ _ _ => rfl, hpick Item.class? fun _ _ _ => rfl, hsynonyms,
    hconstants, hvariables, hclasses]
  show EStateM.Result.ok (⟨⟨_, _, _, _, _ ++ [], _⟩, _⟩ : Built) _ = _
  rw [List.append_nil]

-- The text of a module that it tells is loaded as the module, with None last in its unions and the
-- digest of the text for its name.
theorem load_text {digest : Hasher} (hsized : digest.Sized)
    (ha : ∀ a ∈ m.aliases, Text.after? (m.name ++ ".") a.name = none)
    (target : Target) (filename : Option Text) {name : Text}
    (hname : digest.hex (Print.module m) = .ok name) :
    load digest ⟨none, target, filename⟩ (Print.module m) = .ok { m.noneLast with name := name } := by
  obtain ⟨body, hparse, hsays⟩ := parseSource_module hs h ha
  obtain ⟨lines, hmodule⟩ := moduleOf_module hs hd h hsays name
  have hbuild : build name target body = .ok ⟨{ m.noneLast with name := name }, lines⟩ := by
    have hbuiltins : (name != "typing") = true := bne_iff_ne.mpr (hsized.ne_typing hname)
    unfold build
    rw [hbuiltins, tree_module hsays target]
    dsimp only
    rw [hmodule]
  have hunnamed : moduleName digest ⟨none, target, filename⟩ (Print.module m) = .ok name := hname
  rw [load_of_moduleName hunnamed, loadAs, hparse]
  dsimp only
  rw [hbuild]
  dsimp only
  rw [validate_module hs hd]
  rfl

end

section

variable {digest : Hasher} {message name : Text} (h : digest.hex message = .ok name)

include h

theorem backtick_not_mem_hex : Lexeme.backtick ∉ name := by
  have hdigit : ∀ n < 16, Nat.digitChar n ≠ Lexeme.backtick := by decide
  intro hm
  obtain ⟨n, hn, hc⟩ := Hasher.digit_of_mem h hm
  exact hdigit n hn hc.symm

-- No name in a stub goes on from a digest with a dot.
theorem after?_hex (hs : digest.Sized) {other : Text} (ho : Identifier other) :
    Text.after? (name ++ ".") other = none := by
  cases hafter : Text.after? (name ++ ".") other with
  | none => rfl
  | some rest =>
      have hname := append_of_after? hafter
      cases ho with
      | @word first letters hf hr hk =>
          have hdot : '.' ∈ first :: letters := by simp [← hname]
          rcases List.mem_cons.mp hdot with rfl | hm
          · exact absurd hf (by decide)
          · exact absurd (hr _ hm) (by decide)
      | @quoted inner hne hb hl =>
          have hlength := hs.length h
          cases name with
          | nil => simp at hlength
          | cons first digits =>
              obtain rfl : first = Lexeme.backtick := (List.cons.inj hname).1
              exact absurd List.mem_cons_self (backtick_not_mem_hex h)

-- A type with short names only names nothing in a module that is called like a digest.
theorem outside_hex (hs : digest.Sized) {t : Ty}
    (ht : ∀ short, .named short ∈ t.parts → short.length ≤ 32) : t.Outside name := by
  intro last _ hm
  have hlength := ht _ hm
  rw [List.length_append, List.length_cons, hs.length h] at hlength
  omega

end

-- The text of an accepted source's module that it tells is accepted, and its module has that text,
-- as long as the text has a digest and no type names anything in a module that is called like one of
-- the two.
theorem load_print {digest : Hasher} (hsized : digest.Sized) {target : Target}
    {filename : Option Text} {source name : Text} {m : StubModule}
    (h : load digest ⟨none, target, filename⟩ source = .ok m) (ht : m.Told)
    (hname : digest.hex (Print.module m) = .ok name)
    (ho : ∀ t ∈ m.types, t.Outside m.name ∧ t.Outside name) :
    ∃ again, load digest ⟨none, target, filename⟩ (Print.module m) = .ok again ∧
      Print.module again = Print.module m := by
  obtain ⟨own, body, built, hown, hp, hb, hv, rfl⟩ := load_ok h
  have hs : built.module.Shaped Ty.Canonical :=
    shaped_load Build.kept_canonical (fun _ _ => trivial) hp hb
  have hd : Distinct built.module := by
    rw [distinct_iff (built_ne_nil hp hb), ← Unique.fault?_eq_none_iff]
    exact validate_eq_ok.mp hv
  have hbuilt : built.module.name = own := by
    obtain ⟨scan, state, -, hmodule⟩ := build_ok hb
    obtain ⟨items, functions, -, -, hm, -⟩ := moduleOf_ok hmodule
    rw [hm]
  have haliases : ∀ message text, digest.hex message = .ok text → ∀ a ∈ built.module.aliases,
      Text.after? (text ++ ".") a.name = none :=
    fun _ _ hhex a ha => after?_hex hhex hsized (hs.aliases a ha).1
  have hbefore : ∀ a ∈ built.module.aliases,
      Text.after? (built.module.name ++ ".") a.name = none := hbuilt ▸ haliases source own hown
  exact ⟨_, load_text hs hd ht hsized hbefore target filename hname,
    module_again ho hbefore (haliases _ name hname)⟩

theorem load_print_class :
    let digest (text : Text) : Text := Digest.hex (Digest.md5Bytes text)
    let source : Text := "from a import B\nclass C(B):\n    x: Optional[C]\n"
    let text : Text := "import a\nfrom typing import Optional\n\nfrom a import B\n\n" ++
      "class C(a.B):\n    x = ...  # type: Optional[C]\n"
    let m : StubModule := ⟨digest source, [⟨"B", .named "a.B"⟩], [], [],
      [⟨"C", [.named "a.B"], none, [⟨"x", .union [.named "C", .named "NoneType"]⟩], []⟩], []⟩
    load Digest.md5 ⟨none, .standard, none⟩ source = .ok m ∧ Print.module m = text ∧ m.Told ∧
      Digest.md5.hex text = .ok (digest text) ∧
      (∀ t ∈ m.types, t.Outside m.name ∧ t.Outside (digest text)) ∧
      ∃ again, load Digest.md5 ⟨none, .standard, none⟩ text = .ok again ∧
        Print.module again = text := by
  intro digest source text m
  have hrun : (load Digest.md5 ⟨none, .standard, none⟩ source).toOption = some m := by
    decide +kernel
  have hload : load Digest.md5 ⟨none, .standard, none⟩ source = .ok m := ok_of_toOption hrun
  have htext : Print.module m = text := by decide +kernel
  have hplain : ∀ word ∈ (["a", "x", "B", "C", "None", "Optional"] : List Text),
      PlainWord word := by decide
  have hword : ∀ word ∈ (["a", "x", "B", "C", "None", "Optional"] : List Text),
      Identifier word := fun word hm => (hplain word hm).identifier
  have hresolve : ∀ pair ∈ ([("a.B", .named "a.B"), ("C", .named "C"), ("None", .named "NoneType"),
      ("Optional", .named "typing.Optional")] : List (Text × Ty)),
      m.namesAfter.resolve pair.1 = pair.2 := by decide +kernel
  have hbase : (Ty.named "a.B").Told m.namesAfter nestingLimit :=
    ⟨⟨.cons (hword "a" (by simp)) (.single (hword "B" (by simp))), hresolve ("a.B", _) (by simp)⟩,
      by decide⟩
  have hunion : (Ty.union [.named "C", .named "NoneType"]).Told m.namesAfter
      (nestingLimit - 1) := by
    refine ⟨⟨fun word hm => ?_, by decide, ⟨.single (hword "C" (by simp)), ?_⟩,
      ⟨.single (hword "None" (by simp)), ?_⟩, trivial⟩, by decide⟩
    · obtain rfl : word = "Optional" := List.mem_singleton.mp hm
      exact hresolve ("Optional", _) (by simp)
    · exact hresolve ("C", _) (by simp)
    · exact hresolve ("None", _) (by simp)
  have htold : m.Told := by
    refine ⟨fun use hneeds => ?_, ⟨⟨by decide, ?_, hword "B" (by simp)⟩, trivial⟩, by simp [m],
      by simp [m], List.forall_mem_singleton.mpr ?_, by simp [m]⟩
    · have huses : ∀ use ∈ (sections m).flatten.flatMap (·.uses),
          use = .module "a" ∨ use = .typing "Optional" := by decide +kernel
      obtain rfl | rfl := huses use (mem_uses_sections.mpr hneeds)
      · exact .single (hword "a" (by simp))
      · exact hword "Optional" (by simp)
    · exact ⟨_, .named (Nat.zero_le 2) (.single (hword "a" (by simp)))⟩
    · exact ⟨hword "C" (by simp), List.forall_mem_singleton.mpr hbase, by simp,
        List.forall_mem_singleton.mpr ⟨hword "x" (by simp), hunion, by decide⟩, by simp⟩
  have hshort : ∀ t ∈ m.types, ∀ name, .named name ∈ t.parts → name.length ≤ 32 := by
    have htypes : m.types = [.named "a.B", .named "a.B",
        .union [.named "C", .named "NoneType"]] := by decide
    rw [htypes]
    simp [Ty.parts, Ty.partsAll]
  have hdigest : ∀ message, Digest.md5.hex message = .ok (digest message) := fun _ => rfl
  have houtside : ∀ t ∈ m.types, ∀ message, t.Outside (digest message) :=
    fun t ht message => outside_hex (hdigest message) Digest.sized_md5 (hshort t ht)
  have hagain := load_print Digest.sized_md5 hload htold (hdigest (Print.module m)) fun t ht =>
    ⟨houtside t ht source, houtside t ht (Print.module m)⟩
  rw [htext] at hagain
  exact ⟨hload, htext, htold, hdigest text, fun t ht => ⟨houtside t ht source, houtside t ht text⟩,
    hagain⟩

-- The name of an alias is lost where it is printed as an import of a typing name.
theorem load_print_hidden :
    ∃ m again, load Digest.md5 ⟨none, .standard, none⟩ "x = Hashable" = .ok m ∧
      Print.module m = "from typing import Hashable as x" ∧
      load Digest.md5 ⟨none, .standard, none⟩ (Print.module m) = .ok again ∧
      Print.module again ≠ Print.module m := by
  have hrun : (load Digest.md5 ⟨none, .standard, none⟩ "x = Hashable").toOption.any (fun m =>
      decide (Print.module m = "from typing import Hashable as x") &&
        (load Digest.md5 ⟨none, .standard, none⟩ (Print.module m)).toOption.any fun again =>
          decide (Print.module again ≠ Print.module m)) = true := by decide +kernel
  obtain ⟨m, hm, hd⟩ := (Option.any_eq_true _ _).mp hrun
  obtain ⟨htext, hd⟩ := Bool.and_eq_true_iff.mp hd
  obtain ⟨again, hagain, hne⟩ := (Option.any_eq_true _ _).mp hd
  exact ⟨m, again, ok_of_toOption hm, of_decide_eq_true htext, ok_of_toOption hagain,
    of_decide_eq_true hne⟩

end Load

end TypeStub
