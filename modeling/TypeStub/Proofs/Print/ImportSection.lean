import TypeStub.Proofs.Print.Needs

-- What each printed declaration relies on, and the import section of a whole module.
namespace TypeStub

namespace Print

open Piece

variable {home : Text} {use : Use}

theorem mem_uses_parameter {p : Parameter} : use ∈ (parameter home p).uses ↔
    p.type ≠ .named "object" ∧ p.type.Needs home use := by
  have hopt : (parameter home p).uses =
      if p.type.isNamed "object" then [] else (type home p.type).uses := by
    unfold parameter
    cases p.isOptional <;> cases p.type.isNamed "object" <;> simp
  rw [hopt]
  by_cases hobject : p.type = .named "object"
  · rw [if_pos (Ty.isNamed_iff.mpr hobject)]
    exact iff_of_false List.not_mem_nil fun h => h.1 hobject
  · rw [if_neg (mt Ty.isNamed_iff.mp hobject), mem_uses_type]
    exact (and_iff_right hobject).symm

theorem mem_uses_starParameter {stars : Text} {p : Parameter} :
    use ∈ (starParameter home stars p).uses ↔
      (∃ base params, p.type = .generic base params) ∧ p.type.Needs home use := by
  rw [← mem_uses_type]
  unfold starParameter
  cases htype : p.type with
  | generic base params =>
      dsimp only
      cases params.getLast? <;> simp
  | _ => simp

theorem mem_uses_option {o : Option Parameter} {print : Parameter → Piece} :
    (∃ piece ∈ (o.map print).toList, use ∈ piece.uses) ↔
      ∃ p, o = some p ∧ use ∈ (print p).uses := by
  cases o <;> simp

-- A star that marks the keyword-only parameters relies on nothing, unless it is `*args`.
theorem mem_uses_parameters {s : Signature} :
    use ∈ (parameters home s).flatMap (·.uses) ↔
      (∃ p ∈ s.params, use ∈ (parameter home p).uses) ∨
        (∃ p, s.starArgs = some p ∧ use ∈ (starParameter home "*" p).uses) ∨
          ∃ p, s.starStarArgs = some p ∧ use ∈ (starParameter home "**" p).uses := by
  have hmarker : ∀ (star : Option Piece) (others : List Parameter),
      (if others.isEmpty then star.toList else [star.getD "*"]).flatMap (·.uses) =
        star.toList.flatMap (·.uses) := by
    intro star others
    cases star <;> split <;> simp
  have hplain : s.params.takeWhile (!·.keywordOnly) <+: s.params := List.takeWhile_prefix _
  have hparams := List.prefix_iff_eq_append.mp hplain
  conv_rhs => rw [← hparams]
  simp only [parameters, List.flatMap_append, hmarker, List.mem_append, mem_uses_option,
    List.flatMap_map, List.mem_flatMap, or_and_right, exists_or]
  exact (or_congr_left or_right_comm).trans or_assoc

@[simp] theorem uses_mutator {m : Mutator} : (mutator home m).uses = [] := rfl

@[simp] theorem uses_raised {t : Ty} : (raised home t).uses = (type home t).uses := by
  unfold raised
  simp

-- Mutated types are printed without counting.
theorem mem_uses_signature_parts {name : Text} {kind : FunctionKind} {s : Signature} :
    use ∈ (signature home name kind s).uses ↔ use ∈ (parameters home s).flatMap (·.uses) ∨
      use ∈ (type home s.returns).uses ∨ ∃ t ∈ s.exceptions, use ∈ (type home t).uses := by
  have hbody : (s.mutators.map (mutator home) ++ s.exceptions.map (raised home)).flatMap (·.uses) =
      s.exceptions.flatMap fun t => (type home t).uses := by
    simp [List.flatMap_map]
  have huses : (signature home name kind s).uses = (parameters home s).flatMap (·.uses) ++
      (type home s.returns).uses ++ s.exceptions.flatMap fun t => (type home t).uses := by
    rw [← hbody]
    unfold signature
    dsimp only
    split
    · rename_i hnil
      rw [hnil]
      simp
    · simp [List.flatMap_map]
  rw [huses]
  simp only [List.mem_append, List.mem_flatMap, or_assoc]

theorem mem_uses_signature {name : Text} {kind : FunctionKind} {s : Signature} :
    use ∈ (signature home name kind s).uses ↔ s.Needs home use := by
  rw [mem_uses_signature_parts, mem_uses_parameters]
  simp only [mem_uses_parameter, mem_uses_starParameter, mem_uses_type]
  constructor
  · rintro ((⟨p, hp, hobject, h⟩ | ⟨p, hp, ⟨base, params, htype⟩, h⟩ |
      ⟨p, hp, ⟨base, params, htype⟩, h⟩) | h | ⟨t, ht, h⟩)
    · exact .param hp hobject h
    · exact .star (.inl hp) htype h
    · exact .star (.inr hp) htype h
    · exact .returns h
    · exact .raises ht h
  · rintro (⟨hp, hobject, h⟩ | ⟨hp | hp, htype, h⟩ | h | ⟨ht, h⟩)
    · exact .inl (.inl ⟨_, hp, hobject, h⟩)
    · exact .inl (.inr (.inl ⟨_, hp, ⟨_, _, htype⟩, h⟩))
    · exact .inl (.inr (.inr ⟨_, hp, ⟨_, _, htype⟩, h⟩))
    · exact .inr (.inl h)
    · exact .inr (.inr ⟨_, ht, h⟩)

theorem mem_uses_function {f : StubFunction} :
    use ∈ (function home f).uses ↔ f.Needs home use := by
  unfold function
  constructor
  · intro h
    split at h
    · cases h
    · rename_i hexternal
      obtain ⟨piece, hp, h⟩ := List.mem_flatMap.mp h
      obtain ⟨s, hs, rfl⟩ := List.mem_map.mp hp
      exact .signature (Bool.eq_false_iff.mpr hexternal) hs (mem_uses_signature.mp h)
  · rintro ⟨hinternal, hs, h⟩
    rw [hinternal]
    exact List.mem_flatMap.mpr ⟨_, List.mem_map_of_mem hs, mem_uses_signature.mpr h⟩

theorem mem_uses_constant {k : Constant} :
    use ∈ (constant home k).uses ↔ k.type.Needs home use := by
  simp [constant, mem_uses_type]

theorem mem_uses_aliasLine {a : Alias} : use ∈ (aliasLine home a).uses ↔
    (∀ name : Text, a.target = .named name → '.' ∉ name) ∧ a.target.Needs home use := by
  have hassigned : use ∈ (a.name ++ " = " ++ type home a.target : Piece).uses ↔
      a.target.Needs home use := by
    simp [mem_uses_type]
  unfold aliasLine
  cases htarget : a.target with
  | named name =>
      rw [htarget] at hassigned
      dsimp only
      cases hsplit : Text.splitLastDot name with
      | some pair =>
          obtain ⟨rfl, -⟩ := eq_of_splitLastDot hsplit
          exact iff_of_false List.not_mem_nil fun h => h.1 _ rfl (by simp)
      | none =>
          have hdot := dot_not_mem_of_splitLastDot hsplit
          rw [and_iff_right fun other heq => Ty.named.inj heq ▸ hdot]
          exact hassigned
  | _ =>
      rw [htarget] at hassigned
      exact hassigned.trans (and_iff_right fun _ heq => nomatch heq).symm

theorem mem_uses_typeVariable {v : TypeVariable} : use ∈ (typeVariable home v).uses ↔
    use = .typing "TypeVar" ∨ ∃ t ∈ v.constraints, t.Needs home use := by
  simp [typeVariable, List.flatMap_map, mem_uses_type]

theorem uses_stubClass {c : StubClass} : (stubClass home c).uses =
    (classBases home c).flatMap (·.uses) ++ (c.constants.flatMap fun k => (constant home k).uses) ++
      c.methods.flatMap fun f => (function home f).uses := by
  have hheritage : (if (classBases home c).isEmpty then ("" : Piece)
      else "(" ++ joinWith ", " (classBases home c) ++ ")").uses =
        (classBases home c).flatMap (·.uses) := by
    cases classBases home c <;> simp
  have hbody : (if c.constants.isEmpty ∧ c.methods.isEmpty then
        ("\n" ++ indentation ++ "pass" : Piece)
      else joinWith []
        ((c.constants.map fun k => ("\n" ++ indentation ++ constant home k : Piece)) ++
          c.methods.map fun f => indented (function home f))).uses =
      (c.constants.flatMap fun k => (constant home k).uses) ++
        c.methods.flatMap fun f => (function home f).uses := by
    split
    · rename_i hempty
      rw [List.isEmpty_iff.mp hempty.1, List.isEmpty_iff.mp hempty.2]
      rfl
    · simp [List.flatMap_map, indented]
  unfold stubClass
  dsimp only
  rw [uses_append, uses_append, uses_append, uses_append, uses_append, hheritage, hbody]
  simp

theorem mem_uses_stubClass {c : StubClass} : use ∈ (stubClass home c).uses ↔ c.Needs home use := by
  have hbases : use ∈ (classBases home c).flatMap (·.uses) ↔
      (∃ t ∈ c.parents, t.Needs home use) ∨ ∃ t, c.metaclass = some t ∧ t.Needs home use := by
    cases hmeta : c.metaclass <;> simp [classBases, hmeta, List.flatMap_map, mem_uses_type]
  rw [uses_stubClass]
  simp only [List.mem_append, hbases, List.mem_flatMap, mem_uses_constant, mem_uses_function]
  constructor
  · rintro (((⟨t, ht, h⟩ | ⟨t, ht, h⟩) | ⟨k, hk, h⟩) | ⟨f, hf, h⟩)
    · exact .parent ht h
    · exact .metaclass ht h
    · exact .constant hk h
    · exact .method hf h
  · rintro (⟨ht, h⟩ | ⟨ht, h⟩ | ⟨hk, h⟩ | ⟨hf, h⟩)
    · exact .inl (.inl (.inl ⟨_, ht, h⟩))
    · exact .inl (.inl (.inr ⟨_, ht, h⟩))
    · exact .inl (.inr ⟨_, hk, h⟩)
    · exact .inr ⟨_, hf, h⟩

theorem mem_uses_sections {m : StubModule} :
    use ∈ (sections m).flatten.flatMap (·.uses) ↔ m.Needs use := by
  simp only [sections, List.flatten_cons, List.flatten_nil, List.append_nil, List.flatMap_append,
    List.flatMap_map, List.mem_append, List.mem_flatMap, mem_uses_aliasLine, mem_uses_constant,
    mem_uses_typeVariable, mem_uses_stubClass, mem_uses_function]
  constructor
  · rintro (⟨a, ha, hplain, h⟩ | ⟨k, hk, h⟩ | ⟨v, hv, rfl | ⟨t, ht, h⟩⟩ | ⟨c, hc, h⟩ | ⟨f, hf, h⟩)
    · exact .alias ha hplain h
    · exact .constant hk h
    · exact .typeVariable hv
    · exact .constraint hv ht h
    · exact .stubClass hc h
    · exact .function hf h
  · rintro (⟨ha, hplain, h⟩ | ⟨hk, h⟩ | hv | ⟨hv, ht, h⟩ | ⟨hc, h⟩ | ⟨hf, h⟩)
    · exact .inl ⟨_, ha, hplain, h⟩
    · exact .inr (.inl ⟨_, hk, h⟩)
    · exact .inr (.inr (.inl ⟨_, hv, .inl rfl⟩))
    · exact .inr (.inr (.inl ⟨_, hv, .inr ⟨_, ht, h⟩⟩))
    · exact .inr (.inr (.inr (.inl ⟨_, hc, h⟩)))
    · exact .inr (.inr (.inr (.inr ⟨_, hf, h⟩)))

-- One line for each module, and one for all the names of the typing module.
def importLines (modules names : List Text) : List Text :=
  modules.map (fun name => ("import " ++ name : Text)) ++
    if names = [] then [] else ["from typing import " ++ Text.joinWith ", " names]

-- Lines that make a section, when there are any.
def paragraph? (lines : List Text) : List Text :=
  if lines = [] then [] else [Text.joinWith "\n" lines]

theorem imports_eq (uses : List Use) : imports uses =
    importLines (sortedNames (uses.filterMap moduleName?))
      (sortedNames (uses.filterMap typingName?)) := by
  unfold imports importLines
  cases sortedNames (uses.filterMap typingName?) with
  | nil => exact (List.append_nil _).symm
  | cons => rfl

theorem joinWith_ne_nil {separator first : Text} {rest : List Text} (h : first ≠ []) :
    Text.joinWith separator (first :: rest) ≠ [] := by
  cases rest with
  | nil => rwa [Text.joinWith_singleton]
  | cons next more =>
      rw [Text.joinWith_cons, List.append_assoc]
      exact List.append_ne_nil_of_left_ne_nil h _

theorem importLines_ne_nil {modules names : List Text} :
    ∀ line ∈ importLines modules names, line ≠ [] := by
  intro line hline
  rcases List.mem_append.mp hline with hmodule | hnames
  · obtain ⟨name, -, rfl⟩ := List.mem_map.mp hmodule
    simp
  · split at hnames
    · cases hnames
    · obtain rfl := List.mem_singleton.mp hnames
      simp

-- Import lines are not empty, so that a section without text is one without lines.
theorem paragraph?_importLines (modules names : List Text) (texts : List Text) :
    (let imports := Text.joinWith "\n" (importLines modules names)
     if imports.isEmpty then texts else imports :: texts) =
      paragraph? (importLines modules names) ++ texts := by
  have hlines := @importLines_ne_nil modules names
  dsimp only
  revert hlines
  cases importLines modules names with
  | nil => exact fun _ => rfl
  | cons first rest =>
      intro hlines
      have htext := @joinWith_ne_nil "\n" first rest (hlines first List.mem_cons_self)
      rw [if_neg (by simpa using htext), paragraph?, if_neg (List.cons_ne_nil _ _)]
      rfl

theorem paragraph?_sections (groups : List (List Piece)) :
    ((groups.filter (!·.isEmpty)).map fun items => Text.joinWith "\n" (items.map (·.text))) =
      groups.flatMap fun items => paragraph? (items.map (·.text)) := by
  induction groups with
  | nil => rfl
  | cons items rest ih =>
      cases items with
      | nil => exact ih
      | cons first more => exact congrArg _ ih

theorem mem_sortedNames_filterMap {pick : Use → Option Text} (make : Text → Use) {name : Text}
    {uses : List Use} (h : ∀ use, pick use = some name ↔ use = make name) :
    name ∈ sortedNames (uses.filterMap pick) ↔ make name ∈ uses := by
  rw [mem_sortedNames, List.mem_filterMap]
  simp [h]

-- Exactly what the declarations need is imported, in byte order and each name once.
theorem module_imports (m : StubModule) : ∃ modules names : List Text,
    modules.Pairwise (· < ·) ∧ (∀ name, name ∈ modules ↔ m.Needs (.module name)) ∧
    names.Pairwise (· < ·) ∧ (∀ name, name ∈ names ↔ m.Needs (.typing name)) ∧
    Print.module m = Text.joinWith "\n\n" (paragraph? (importLines modules names) ++
      (sections m).flatMap fun items => paragraph? (items.map (·.text))) := by
  refine ⟨sortedNames (((sections m).flatten.flatMap (·.uses)).filterMap moduleName?),
    sortedNames (((sections m).flatten.flatMap (·.uses)).filterMap typingName?),
    pairwise_sortedNames _, fun name => ?_, pairwise_sortedNames _, fun name => ?_, ?_⟩
  · rw [mem_sortedNames_filterMap .module, mem_uses_sections]
    intro use
    cases use <;> simp [moduleName?]
  · rw [mem_sortedNames_filterMap .typing, mem_uses_sections]
    intro use
    cases use <;> simp [typingName?]
  · rw [Print.module, imports_eq, ← paragraph?_sections]
    exact congrArg _ (paragraph?_importLines _ _ _)

-- A container of None and of a class in another module, beside a class of this one.
example : Print.module ⟨"m", [], [⟨"x", .generic (.named "list")
      [.union [.named "a.b.C", .named "m.D", .named "NoneType"]]⟩], [], [], []⟩ =
    "import a.b\nfrom typing import List, Optional, Union\n\n" ++
      "x = ...  # type: List[Optional[Union[a.b.C, m.D]]]" := by
  rfl

end Print

end TypeStub
