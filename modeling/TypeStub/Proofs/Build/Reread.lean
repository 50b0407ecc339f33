import TypeStub.Proofs.Build.Alike
import TypeStub.Proofs.Live.Prescan
import TypeStub.Proofs.Merge.Back

-- What the statements of a module's text declare when the text is read.
namespace TypeStub

open Print Grammar Build

namespace Declare

-- A statement as it is written adds such items where such names are known, and after it others
-- are. The line of a class may be any.
def Adds (before : Names) (text : StmtText) (items : List Item) (after : Names) : Prop :=
  ∀ statement, text.Says statement → ∀ path, ∃ found,
    moduleStatement [] path statement ⟨before, .none⟩ = .ok found ⟨after, .none⟩ ∧
      ItemsAlike (fun _ _ => True) found items

-- Several statements do, one after another.
def AddAll (before : Names) (texts : List StmtText) (items : List Item) (after : Names) : Prop :=
  ∀ body, List.Forall₂ StmtText.Says texts body → ∀ position, ∃ found,
    moduleBody [] [] position body ⟨before, .none⟩ = .ok found ⟨after, .none⟩ ∧
      ItemsAlike (fun _ _ => True) found items

section

variable {names before middle after : Names} {text : StmtText} {texts rest : List StmtText}
  {items more : List Item}

theorem Adds.same (hitems : ∀ item ∈ items, item.classLine? = none)
    (h : ∀ statement, text.Says statement → ∀ path,
      moduleStatement [] path statement ⟨before, .none⟩ = .ok items ⟨after, .none⟩) :
    Adds before text items after := fun statement hsays path =>
  ⟨items, h statement hsays path, itemsAlike_of_none hitems⟩

theorem AddAll.nil (names : Names) : AddAll names [] [] names := by
  intro body hbody position
  cases hbody
  exact ⟨[], by rw [moduleBody]; rfl, .nil⟩

theorem AddAll.cons (hfirst : Adds before text items middle) (hrest : AddAll middle rest more after) :
    AddAll before (text :: rest) (items ++ more) after := by
  intro body hbody position
  cases hbody with
  | cons hsays hbody =>
      obtain ⟨found, hrun, halike⟩ := hfirst _ hsays [position]
      obtain ⟨others, hruns, hothers⟩ := hrest _ hbody (position + 1)
      refine ⟨found ++ others, ?_, List.rel_append halike hothers⟩
      rw [moduleBody]
      simp only [Bind.bind, EStateM.bind, hrun, hruns]
      rfl

-- Statements that each add one item and leave the names as they are.
theorem AddAll.each (h : List.Forall₂ (fun text item => Adds names text [item] names) texts items)
    (hrest : AddAll names rest more after) :
    AddAll names (texts ++ rest) (items ++ more) after := by
  induction h with
  | nil => exact hrest
  | @cons _ item _ others hfirst _ ih =>
      have hcons : item :: others ++ more = [item] ++ (others ++ more) := rfl
      rw [hcons]
      exact .cons hfirst ih

theorem importedMembers_typing (words : List Text) (names : Names) :
    (words.map memberNamed).mapM (importedMember "typing") ⟨names, .none⟩ =
      .ok (words.map fun _ => none) ⟨names.importTyping words, .none⟩ := by
  induction words generalizing names with
  | nil => rfl
  | cons word rest ih =>
      have hfirst : importedMember "typing" (memberNamed word) ⟨names, .none⟩ =
          .ok none ⟨names.addImport word ("typing" ++ '.' :: word), .none⟩ := rfl
      rw [List.map_cons, List.mapM_cons]
      simp only [Bind.bind, EStateM.bind, hfirst, ih]
      rfl

-- The modules that are imported add nothing; the names of the typing module are known after.
theorem AddAll.imports {uses : List Use}
    (hrest : AddAll (names.importTyping (sortedNames (uses.filterMap typingName?))) rest more after) :
    AddAll names (importTexts uses ++ rest) more after := by
  have hmodule : ∀ module : Text, Adds names (.importModule module) [] names := by
    refine fun module => .same (by simp) fun statement hsays path => ?_
    obtain ⟨place, rfl⟩ := hsays
    rfl
  have htyping : ∀ words : List Text, Adds names (.importFrom "typing" (words.map memberNamed)) []
      (names.importTyping words) := by
    refine fun words => .same (by simp) fun statement hsays path => ?_
    obtain ⟨place, rfl⟩ := hsays
    have hrun := importedMembers_typing words names
    rw [moduleStatement]
    simp only [Bind.bind, EStateM.bind, hrun]
    simp [Pure.pure, EStateM.pure]
  have hmodules : ∀ (modules : List Text) {others : List StmtText}, AddAll names others more after →
      AddAll names (modules.map .importModule ++ others) more after := by
    intro modules others hothers
    induction modules with
    | nil => exact hothers
    | cons module rest ih => exact .cons (hmodule module) ih
  rw [importTexts, List.append_assoc]
  refine hmodules _ ?_
  cases hwords : sortedNames (uses.filterMap typingName?) with
  | nil =>
      rw [hwords] at hrest
      exact hrest
  | cons word words =>
      rw [hwords] at hrest
      exact .cons (htyping (word :: words)) hrest

end

section

variable {names : Names}

theorem declared_type {line : Int32} {type : Ty} (h : Rereads ⟨names, .none⟩ type) :
    declared line (.value (expr type) none) = return .synonym (expr type) := by
  obtain ⟨name, hbegins⟩ := begins_type h.1 h.2
  obtain ⟨-, he⟩ | ⟨texts, elements, -, he, -⟩ := hbegins.rest <;> rw [he] <;> rfl

theorem adds_alias {a : Alias} (hc : a.target.Canonical) (h : a.Told names) :
    Adds names (aliasText a) [.synonym a.noneLast] (a.bind names) := by
  refine .same (by simp [Item.classLine?]) fun statement hsays path => ?_
  unfold Alias.Told at h
  unfold aliasText at hsays
  unfold Alias.bind
  cases himported : a.imported? with
  | some pair =>
      obtain ⟨source, member⟩ := pair
      rw [himported] at h hsays
      obtain ⟨place, rfl⟩ := hsays
      have htarget : a.target = .named (source ++ '.' :: member) := by
        unfold Alias.imported? at himported
        split at himported
        · rename_i target ht
          rw [ht, (eq_of_splitLastDot himported).1]
        · cases himported
      have hname : (if member = a.name then none else some a.name).getD member = a.name := by
        split
        · assumption
        · rfl
      have hitem : Alias.noneLast a = ⟨a.name, .named (source ++ '.' :: member)⟩ := by
        rw [Alias.noneLast, htarget]
        rfl
      have hmember : importedMember source ⟨member, if member = a.name then none else some a.name⟩
          ⟨names, .none⟩ = .ok (some (.synonym a.noneLast))
            ⟨names.addImport a.name (source ++ '.' :: member), .none⟩ := by
        unfold importedMember
        dsimp only
        rw [hname, if_neg h.1, hitem]
        rfl
      rw [moduleStatement, List.mapM_cons, List.mapM_nil]
      simp only [Bind.bind, EStateM.bind, hmember]
      rfl
  | none =>
      rw [himported] at h hsays
      obtain ⟨place, rfl⟩ := hsays
      have hrereads : Rereads ⟨names, .none⟩ a.target := ⟨hc, h.readsBack⟩
      have htype := @gives_typeAt ⟨names, .none⟩ place.line a.target hrereads
      have hassigned : Gives ⟨names, .none⟩
          (moduleAssignment place.line a.name (.value (expr a.target) none))
          (.synonym a.noneLast) := by
        rw [moduleAssignment, declared_type hrereads]
        exact .bind (.pure _ _) (.bind htype (.pure _ _))
      exact Gives.bind hassigned (.pure _ _)

-- An import among the aliases is known to those that follow.
theorem AddAll.aliases {aliases : List Alias} {rest : List StmtText} {more : List Item}
    {after : Names} (hc : ∀ a ∈ aliases, a.target.Canonical) (h : Alias.AllTold names aliases)
    (hrest : AddAll (aliases.foldl Alias.bind names) rest more after) :
    AddAll names (aliases.map aliasText ++ rest)
      (aliases.map (fun a => Item.synonym a.noneLast) ++ more) after := by
  induction aliases generalizing names with
  | nil => exact hrest
  | cons a others ih =>
      have hcons : (a :: others).map (fun a => Item.synonym a.noneLast) ++ more =
          [.synonym a.noneLast] ++ (others.map (fun a => Item.synonym a.noneLast) ++ more) := rfl
      rw [hcons]
      exact .cons (adds_alias (hc a (by simp)) h.1)
        (ih (fun b hb => hc b (by simp [hb])) h.2 hrest)

theorem adds_typeVariable {v : TypeVariable} (hc : ∀ type ∈ v.constraints, type.Canonical)
    (h : v.Told names) : Adds names (typeVariableText v) [.typeVariable v.noneLast] names := by
  refine .same (by simp [Item.classLine?]) fun statement hsays path => ?_
  obtain ⟨place, rfl⟩ := hsays
  have htypes := @gives_types ⟨names, .none⟩ place.line v.constraints fun type ht =>
    ⟨hc type ht, (h.constraints type ht).readsBack⟩
  have hexprs : (v.constraints.map written).map (·.2) = v.constraints.map expr := by
    rw [List.map_map]
    rfl
  rw [moduleStatement, typeVariable, hexprs, if_neg (not_not_intro rfl)]
  exact Gives.bind (Gives.bind htypes (.pure _ _)) (.pure _ _)

-- A member adds the same in a module and in a class.
structure MemberAdds (names : Names) (text : MemberText) (item : Item) : Prop where
  ofModule : Adds names (.member text) [item] names
  ofClass : ∀ statement, text.Says statement → ∀ line path scan,
    Gives ⟨names, .none⟩ (classMember [] line path scan statement)
      ⟨scan.constants ++ item.constant?.toList, scan.definitions ++ item.definition?.toList⟩

theorem memberAdds_constant {c : Constant} (hc : c.type.Canonical) {budget : Nat}
    (h : c.Told names budget) : MemberAdds names (constantText c) (.constant c.noneLast) := by
  have hdeclared : ∀ line : Int32, Gives ⟨names, .none⟩
      (declared line (.value .ellipsis (some (expr c.type)))) (.constant c.type.noneLast) :=
    fun line => .bind (gives_typeAt ⟨hc, h.type.readsBack⟩) (.pure _ _)
  constructor
  · refine .same (by simp [Item.classLine?]) fun statement hsays path => ?_
    obtain ⟨place, rfl⟩ := hsays
    exact Gives.bind (Gives.bind (hdeclared place.line) (.pure _ _)) (.pure _ _)
  · intro statement hsays line path scan
    obtain ⟨place, rfl⟩ := hsays
    have hscan : (⟨scan.constants ++ [c.noneLast], scan.definitions ++ []⟩ : ClassScan) =
        { scan with constants := scan.constants ++ [⟨c.name, c.type.noneLast⟩] } := by
      rw [List.append_nil]
      rfl
    show Gives _ _ (⟨scan.constants ++ [c.noneLast], scan.definitions ++ []⟩ : ClassScan)
    rw [hscan]
    exact .bind (hdeclared place.line) (.pure _ _)

theorem memberAdds_definition {name : Text} {decorators : List Text} {d : DefText}
    {built : Definition}
    (h : ∀ line, Gives ⟨names, .none⟩ (Build.definition line ⟨name, decorators, d.body⟩) built) :
    MemberAdds names (.definition name decorators d) (.definition built) := by
  constructor
  · refine .same (by simp [Item.classLine?]) fun statement hsays path => ?_
    obtain ⟨place, rfl⟩ := hsays
    rw [moduleStatement]
    exact Gives.bind (h place.line) (.pure _ _)
  · intro statement hsays line path scan
    obtain ⟨place, rfl⟩ := hsays
    have hscan : (⟨scan.constants ++ [], scan.definitions ++ [built]⟩ : ClassScan) =
        { scan with definitions := scan.definitions ++ [built] } := by
      rw [List.append_nil]
    show Gives _ _ (⟨scan.constants ++ [], scan.definitions ++ [built]⟩ : ClassScan)
    rw [hscan]
    exact .bind (h place.line) (.pure _ _)

-- The definitions that a function is written as are those of the function that is read.
theorem memberAdds_function {f : StubFunction} {budget : Nat}
    (hf : f.Shaped) (hc : ∀ type ∈ f.types, type.Canonical)
    (h : ∀ s ∈ f.signatures, s.Told names budget) :
    List.Forall₂ (MemberAdds names) (functionTexts f)
      ((definitionsOf f.noneLast).map Item.definition) := by
  have hexternal : f.noneLast.isExternal = f.isExternal := rfl
  unfold functionTexts definitionsOf
  rw [hexternal]
  split
  · exact .cons (memberAdds_definition fun line => .bind (.pure _ _) (.pure _ _)) .nil
  · simp only [StubFunction.noneLast, List.map_map, List.forall₂_map_left_iff,
      List.forall₂_map_right_iff, List.forall₂_same]
    refine fun s hs => memberAdds_definition fun line =>
      gives_definition (hf.signatures s hs) fun type ht => ⟨?_, ?_⟩
    · exact canonical_written (fun t ht => hc t (List.mem_flatMap_of_mem hs ht)) type ht
    · exact ((h s hs).types type ht).readsBack

theorem memberAdds_functions {fs : List StubFunction} {budget : Nat}
    (hf : ∀ f ∈ fs, f.Shaped ∧ ∀ type ∈ f.types, type.Canonical)
    (h : ∀ f ∈ fs, ∀ s ∈ f.signatures, s.Told names budget) :
    List.Forall₂ (MemberAdds names) (fs.flatMap functionTexts)
      (((fs.map StubFunction.noneLast).flatMap definitionsOf).map Item.definition) := by
  induction fs with
  | nil => exact .nil
  | cons f rest ih =>
      obtain ⟨hshaped, hcanonical⟩ := hf f (by simp)
      have hfirst := memberAdds_function hshaped hcanonical (h f (by simp))
      have hrest := ih (fun g hg => hf g (by simp [hg])) fun g hg => h g (by simp [hg])
      rw [List.flatMap_cons, List.map_cons, List.flatMap_cons, List.map_append]
      exact List.rel_append hfirst hrest

theorem gives_classBody {texts : List MemberText} {items : List Item} {body : List Stmt}
    (h : List.Forall₂ (MemberAdds names) texts items)
    (hb : List.Forall₂ MemberText.Says texts body) (line : Int32) (path : Path) (position : Nat)
    (scan : ClassScan) : Gives ⟨names, .none⟩ (classBody [] line path position scan body)
      ⟨scan.constants ++ items.filterMap Item.constant?,
        scan.definitions ++ items.filterMap Item.definition?⟩ := by
  induction h generalizing body position scan with
  | nil =>
      cases hb
      simp only [List.filterMap_nil, List.append_nil]
      exact .pure _ _
  | @cons text item texts items hfirst _ ih =>
      cases hb with
      | cons hsays hb =>
          have hrest := ih hb (position + 1) ⟨scan.constants ++ item.constant?.toList,
            scan.definitions ++ item.definition?.toList⟩
          have hpick : ∀ {α : Type} (pick : Item → Option α),
              (item :: items).filterMap pick = (pick item).toList ++ items.filterMap pick := by
            intro α pick
            rw [List.filterMap_cons]
            cases pick item <;> rfl
          rw [hpick, hpick, ← List.append_assoc, ← List.append_assoc]
          exact .bind (hfirst.ofClass _ hsays line _ scan) hrest

theorem gives_parents {line : Int32} {parents : List Ty}
    (h : ∀ type ∈ parents, Rereads ⟨names, .none⟩ type ∧ type ≠ .nothing) (before : List Ty) :
    Gives ⟨names, .none⟩ ((parents.map fun type => (⟨none, expr type⟩ : ClassArg)).foldlM
      (classArgument line) ⟨before, none⟩) ⟨before ++ parents.map Ty.noneLast, none⟩ := by
  induction parents generalizing before with
  | nil =>
      rw [List.map_nil, List.map_nil, List.append_nil]
      exact .pure _ _
  | cons type rest ih =>
      obtain ⟨htype, hne⟩ := h type (by simp)
      have hkind : type.noneLast.kind ≠ .nothing := by
        rw [Ty.kind_noneLast]
        cases type <;> simp_all [Ty.kind]
      have hfirst : Gives ⟨names, .none⟩
          (classArgument line ⟨before, none⟩ ⟨none, expr type⟩) ⟨before ++ [type.noneLast], none⟩ :=
        .bind (gives_typeAt htype) (.ite (fun hk => absurd hk (by simp)) fun _ =>
          .ite (fun hk => absurd hk hkind) fun _ => .pure _ _)
      have hrest := ih (fun other hm => h other (by simp [hm])) (before ++ [type.noneLast])
      rw [List.append_assoc] at hrest
      rw [List.map_cons, List.foldlM_cons]
      exact .bind hfirst hrest

theorem gives_heritage {line : Int32} {c : StubClass} (hc : c.Shaped Ty.Canonical)
    (h : c.Told names) : Gives ⟨names, .none⟩
      (((Print.classArgs c).map ArgText.arg).foldlM (classArgument line) ⟨[], none⟩)
      ⟨c.parents.map Ty.noneLast, c.metaclass.map Ty.noneLast⟩ := by
  have hparents := @gives_parents names line c.parents (fun type ht =>
    ⟨⟨(hc.parents type ht).1, (h.parents type ht).readsBack⟩, (hc.parents type ht).2⟩) []
  have hargs : (c.parents.map fun type => (⟨none, written type⟩ : ArgText)).map ArgText.arg =
      c.parents.map fun type => (⟨none, expr type⟩ : ClassArg) := by
    rw [List.map_map]
    rfl
  unfold Print.classArgs
  rw [List.map_append, hargs, List.foldlM_append]
  refine .bind hparents ?_
  cases hmeta : c.metaclass with
  | none => exact .pure _ _
  | some type =>
      have htype : Rereads ⟨names, .none⟩ type :=
        ⟨hc.metaclass type hmeta, (h.metaclass type hmeta).readsBack⟩
      exact .bind (.bind (gives_typeAt htype) (.pure _ _)) (.pure _ _)

-- A class is read from its text with the same members in the same order.
theorem adds_class {c : StubClass} (hc : c.Shaped Ty.Canonical) (h : c.Told names)
    (hn : (c.methods.map (·.name)).Nodup) :
    Adds names (classText c) [.classDef 0 c.noneLast] names := by
  rintro statement ⟨place, body, rfl, hbody⟩ path
  have hconstants : List.Forall₂ (MemberAdds names) (c.constants.map constantText)
      (c.constants.map fun constant => Item.constant constant.noneLast) := by
    rw [List.forall₂_map_left_iff, List.forall₂_map_right_iff, List.forall₂_same]
    exact fun constant hm =>
      memberAdds_constant (hc.constants constant hm).2 (h.constants constant hm)
  have hmembers := List.rel_append hconstants (memberAdds_functions hc.methods h.methods)
  have hscan := gives_classBody hmembers hbody place.line path.classBody 0 ⟨[], []⟩
  have hpicked : ∀ definitions : List Definition,
      ((c.constants.map fun constant => Item.constant constant.noneLast) ++
        definitions.map Item.definition).filterMap Item.constant? =
          c.constants.map Constant.noneLast ∧
      ((c.constants.map fun constant => Item.constant constant.noneLast) ++
        definitions.map Item.definition).filterMap Item.definition? = definitions := by
    intro definitions
    simp [List.filterMap_map, Function.comp_def, Item.constant?, Item.definition?]
  obtain ⟨hpickedConstants, hpickedDefinitions⟩ :=
    hpicked ((c.methods.map StubFunction.noneLast).flatMap definitionsOf)
  rw [hpickedConstants, hpickedDefinitions] at hscan
  have hmerge : Merge.classMembers (some place.line.toInt)
      ((c.methods.map StubFunction.noneLast).flatMap definitionsOf) =
        .ok ((c.methods.map StubFunction.noneLast).map Merge.Member.method) := by
    refine Merge.classMembers_definitions ?_ ?_ _
    · rw [List.forall_mem_map]
      exact fun f hf => (hc.methods f hf).1.noneLast
    · rw [List.map_map]
      exact hn
  refine ⟨[.classDef place.line c.noneLast], ?_, .cons (.classDef _ trivial) .nil⟩
  have hclass : Gives ⟨names, .none⟩ (classOf place.line c.name ((Print.classArgs c).map ArgText.arg)
      (classBody [] place.line path.classBody 0 ⟨[], []⟩ body)) c.noneLast := by
    refine .bind (gives_heritage hc h) (.bind hscan ?_)
    have hmembers : ((c.methods.map StubFunction.noneLast).map Merge.Member.method).filterMap
        Merge.Member.method? = c.methods.map StubFunction.noneLast := by
      rw [List.filterMap_map]
      exact List.filterMap_some
    have hproperties : ((c.methods.map StubFunction.noneLast).map Merge.Member.method).filterMap
        Merge.Member.property? = [] := by
      simp [List.filterMap_map, Function.comp_def, Merge.Member.property?]
    dsimp only [List.nil_append]
    rw [hmerge]
    refine .bind (.pure _ _) ?_
    rw [hmembers, hproperties, List.append_nil]
    exact .pure _ _
  rw [moduleStatement]
  exact Gives.bind hclass (.pure _ _)

end

end Declare

end TypeStub
