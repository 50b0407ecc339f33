import TypeStub.Print.Module
import TypeStub.Proofs.Print.Uses
import TypeStub.Proofs.Table.Ordered
import TypeStub.Proofs.Ty.Union

-- The import section of a printed module is complete and minimal.
namespace TypeStub

-- The built-in classes that take parameters under a capitalized name of the typing module.
def capitals : List (Text × Text) :=
  [("list", "List"), ("dict", "Dict"), ("tuple", "Tuple"), ("set", "Set"),
   ("frozenset", "FrozenSet"), ("type", "Type"), ("generator", "Generator")]

namespace Ty

-- The base of a parametrized type.
def base? : Ty → Option Ty
  | generic base _ | tuple base _ | callable base _ _ => some base
  | _ => none

-- The types that a type is put together from, its base apart. None goes unwritten in a union.
def operands : Ty → List Ty
  | generic _ params | tuple _ params => params
  | callable _ args result => args ++ [result]
  | union members => members.filter fun t => !t.isNamed "NoneType"
  | _ => []

-- A type in the module `home` needs a name: by itself, by its base, or by one of its operands.
inductive Needs (home : Text) : Ty → Use → Prop
  | typingName (name : Text) : Needs home (named ("typing." ++ name)) (.typing name)
  | dotted {module last : Text} (hlast : '.' ∉ last) (hhome : module ≠ home)
      (htyping : ∀ name : Text, module ++ '.' :: last ≠ "typing." ++ name) :
      Needs home (named (module ++ '.' :: last)) (.module module)
  | anything : Needs home anything (.typing "Any")
  | capital {t : Ty} {word capital : Text} (hbase : t.base? = some (named word))
      (hword : (word, capital) ∈ capitals) : Needs home t (.typing capital)
  | base {t base : Ty} {use : Use} (hbase : t.base? = some base)
      (hother : ∀ pair ∈ capitals, base ≠ named pair.1) (h : Needs home base use) :
      Needs home t use
  | operand {t operand : Ty} {use : Use} (hoperand : operand ∈ t.operands)
      (h : Needs home operand use) : Needs home t use
  | union {members : List Ty} (hnone : named "NoneType" ∉ members) :
      Needs home (union members) (.typing "Union")
  | optional {members : List Ty} (hnone : named "NoneType" ∈ members) :
      Needs home (union members) (.typing "Optional")
  | optionalUnion {members : List Ty} (hnone : named "NoneType" ∈ members)
      (hothers : (union members).operands.length ≠ 1) :
      Needs home (union members) (.typing "Union")

end Ty

-- A parameter of type object goes without its type. Of a star parameter the whole container
-- counts, and nothing when its type takes no parameters. Mutated types need no import.
inductive Signature.Needs (home : Text) (s : Signature) : Use → Prop
  | param {p : Parameter} {use : Use} (hp : p ∈ s.params) (hobject : p.type ≠ .named "object")
      (h : p.type.Needs home use) : Needs home s use
  | star {p : Parameter} {base : Ty} {params : List Ty} {use : Use}
      (hp : s.starArgs = some p ∨ s.starStarArgs = some p) (htype : p.type = .generic base params)
      (h : p.type.Needs home use) : Needs home s use
  | returns {use : Use} (h : s.returns.Needs home use) : Needs home s use
  | raises {t : Ty} {use : Use} (ht : t ∈ s.exceptions) (h : t.Needs home use) : Needs home s use

-- The signatures of an external function are not printed.
inductive StubFunction.Needs (home : Text) (f : StubFunction) : Use → Prop
  | signature {s : Signature} {use : Use} (hinternal : f.isExternal = false)
      (hs : s ∈ f.signatures) (h : s.Needs home use) : Needs home f use

inductive StubClass.Needs (home : Text) (c : StubClass) : Use → Prop
  | parent {t : Ty} {use : Use} (ht : t ∈ c.parents) (h : t.Needs home use) : Needs home c use
  | metaclass {t : Ty} {use : Use} (ht : c.metaclass = some t) (h : t.Needs home use) :
      Needs home c use
  | constant {k : Constant} {use : Use} (hk : k ∈ c.constants) (h : k.type.Needs home use) :
      Needs home c use
  | method {f : StubFunction} {use : Use} (hf : f ∈ c.methods) (h : f.Needs home use) :
      Needs home c use

-- An alias of a dotted name is an import by itself.
inductive StubModule.Needs (m : StubModule) : Use → Prop
  | alias {a : Alias} {use : Use} (ha : a ∈ m.aliases)
      (hplain : ∀ name : Text, a.target = .named name → '.' ∉ name)
      (h : a.target.Needs m.name use) : Needs m use
  | constant {k : Constant} {use : Use} (hk : k ∈ m.constants) (h : k.type.Needs m.name use) :
      Needs m use
  | typeVariable {v : TypeVariable} (hv : v ∈ m.typeVariables) : Needs m (.typing "TypeVar")
  | constraint {v : TypeVariable} {t : Ty} {use : Use} (hv : v ∈ m.typeVariables)
      (ht : t ∈ v.constraints) (h : t.Needs m.name use) : Needs m use
  | stubClass {c : StubClass} {use : Use} (hc : c ∈ m.classes) (h : c.Needs m.name use) :
      Needs m use
  | function {f : StubFunction} {use : Use} (hf : f ∈ m.functions) (h : f.Needs m.name use) :
      Needs m use

theorem dot_not_mem_of_splitLastDot {name : Text} (h : Text.splitLastDot name = none) :
    '.' ∉ name := by
  induction name with
  | nil => exact List.not_mem_nil
  | cons c rest ih =>
      rw [Text.splitLastDot] at h
      split at h
      · cases h
      · rename_i hrest
        split at h
        · cases h
        · rename_i hc
          rw [List.mem_cons, not_or]
          exact ⟨Ne.symm hc, ih hrest⟩

theorem eq_of_splitLastDot {name module last : Text}
    (h : Text.splitLastDot name = some (module, last)) :
    name = module ++ '.' :: last ∧ '.' ∉ last := by
  induction name generalizing module with
  | nil => cases h
  | cons c rest ih =>
      rw [Text.splitLastDot] at h
      split at h
      · rename_i before after hrest
        obtain ⟨rfl, rfl⟩ := Prod.mk.inj (Option.some.inj h)
        obtain ⟨rfl, hlast⟩ := ih hrest
        exact ⟨rfl, hlast⟩
      · rename_i hrest
        split at h
        · rename_i hc
          obtain ⟨rfl, rfl⟩ := Prod.mk.inj (Option.some.inj h)
          exact ⟨congrArg (· :: rest) hc, dot_not_mem_of_splitLastDot hrest⟩
        · cases h

theorem splitLastDot_dotted {last : Text} (module : Text) (h : '.' ∉ last) :
    Text.splitLastDot (module ++ '.' :: last) = some (module, last) := by
  rw [splitLastDot_append_dot, splitLastDot_eq_none h]

namespace Piece

variable {a b : Piece}

@[simp] theorem uses_text (text : Text) : (text : Piece).uses = [] := rfl

@[simp] theorem uses_append : (a ++ b).uses = a.uses ++ b.uses := rfl

@[simp] theorem uses_silent : a.silent.uses = [] := rfl

@[simp] theorem uses_relyingOn {uses : List Use} : (a.relyingOn uses).uses = uses ++ a.uses := rfl

@[simp] theorem uses_joinWith {separator : Text} {pieces : List Piece} :
    (joinWith separator pieces).uses = pieces.flatMap (·.uses) := rfl

@[simp] theorem uses_ofTyping {name : Text} : (ofTyping name).uses = [.typing name] := rfl

end Piece

namespace Print

open Piece

variable {home : Text} {use : Use}

theorem capitalized?_of_mem {pair : Text × Text} (h : pair ∈ capitals) :
    capitalized? pair.1 = some pair.2 := by
  have hall : ∀ pair ∈ capitals, capitalized? pair.1 = some pair.2 := by decide
  exact hall pair h

theorem mem_capitals_of_capitalized? {word capital : Text} (h : capitalized? word = some capital) :
    (word, capital) ∈ capitals := by
  have hall : ∀ pair ∈ Builtin.containers, (pair.2, pair.1) ∈ capitals := by decide
  obtain ⟨pair, hfound, rfl⟩ := Option.map_eq_some_iff.mp h
  have hword : pair.2 = word := by simpa using List.find?_some hfound
  have hmem := hall pair (List.mem_of_find?_eq_some hfound)
  rwa [hword] at hmem

theorem mem_uses_baseType {base : Ty} : use ∈ (baseType base (type home base)).uses ↔
    (∃ pair ∈ capitals, base = .named pair.1 ∧ use = .typing pair.2) ∨
      (∀ pair ∈ capitals, base ≠ .named pair.1) ∧ use ∈ (type home base).uses := by
  by_cases hcapital : ∃ pair ∈ capitals, base = .named pair.1
  · obtain ⟨pair, hpair, rfl⟩ := hcapital
    have huses : (baseType (.named pair.1) (type home (.named pair.1))).uses =
        [.typing pair.2] := by
      rw [baseType, capitalized?_of_mem hpair]
      rfl
    rw [huses, List.mem_singleton]
    constructor
    · intro huse
      exact .inl ⟨pair, hpair, rfl, huse⟩
    · rintro (⟨other, hother, heq, rfl⟩ | ⟨hnone, -⟩)
      · have hword : pair.1 = other.1 := Ty.named.inj heq
        have hfound := capitalized?_of_mem hpair
        rw [hword, capitalized?_of_mem hother] at hfound
        rw [Option.some.inj hfound]
      · exact absurd rfl (hnone pair hpair)
  · have hnone : ∀ pair ∈ capitals, base ≠ .named pair.1 := fun pair hpair heq =>
      hcapital ⟨pair, hpair, heq⟩
    have huses : baseType base (type home base) = type home base := by
      cases base with
      | named word =>
          cases hword : capitalized? word with
          | none => rw [baseType, hword]; rfl
          | some capital => exact absurd rfl (hnone _ (mem_capitals_of_capitalized? hword))
      | _ => rfl
    rw [huses]
    constructor
    · exact fun huse => .inr ⟨hnone, huse⟩
    · rintro (⟨pair, hpair, heq, -⟩ | ⟨-, huse⟩)
      · exact absurd heq (hnone pair hpair)
      · exact huse

theorem mem_uses_nameType {name : Text} (h : use ∈ (nameType home name).uses) :
    (Ty.named name).Needs home use := by
  unfold nameType at h
  split at h
  · cases h
  · split at h
    · rename_i bare htyping
      obtain rfl := append_of_after? htyping
      obtain rfl := List.mem_singleton.mp h
      exact .typingName bare
    · rename_i htyping
      split at h
      · rename_i module last hsplit
        obtain ⟨rfl, hlast⟩ := eq_of_splitLastDot hsplit
        split at h
        · cases h
        · rename_i hhome
          obtain rfl := List.mem_singleton.mp h
          refine .dotted hlast hhome fun name heq => ?_
          rw [heq, after?_append] at htyping
          cases htyping
      · cases h

theorem types_eq_map (ts : List Ty) : types home ts = ts.map (type home) := by
  induction ts with
  | nil => rfl
  | cons t rest ih => rw [types, ih, List.map_cons]

theorem unionMembers_eq_map (members : List Ty) :
    unionMembers home members = (Ty.union members).operands.map (type home) := by
  induction members with
  | nil => rfl
  | cons t rest ih =>
      rw [unionMembers, ih, Ty.operands, Ty.operands]
      by_cases hnone : t.isNamed "NoneType"
      · rw [if_pos hnone, List.filter_cons_of_neg (by simpa using hnone)]
      · rw [if_neg hnone, List.filter_cons_of_pos (by simpa using hnone), List.map_cons]

theorem uses_genericParams {base : Ty} {params : List Piece} :
    (genericParams base params).uses = params.flatMap (·.uses) := by
  unfold genericParams
  split
  · split <;> simp
  · rfl

-- Around its base and its operands, a parametrized type adds nothing to what they rely on.
theorem mem_uses_parametrized {t base : Ty} (h : t.base? = some base) :
    use ∈ (type home t).uses ↔ use ∈ (baseType base (type home base)).uses ∨
      ∃ operand ∈ t.operands, use ∈ (type home operand).uses := by
  cases t with
  | generic | tuple | callable =>
      obtain rfl := Option.some.inj h
      simp [type, types_eq_map, uses_genericParams, Ty.operands]
  | _ => cases h

theorem uses_unionType {hasNone : Bool} {others : List Piece} : (unionType hasNone others).uses =
    (if hasNone then .typing "Optional" :: if others.length = 1 then [] else [.typing "Union"]
      else [.typing "Union"]) ++ others.flatMap (·.uses) := by
  cases hasNone with
  | false => simp [unionType]
  | true =>
      match others with
      | [] => rfl
      | [single] => simp [unionType]
      | first :: second :: rest => simp [unionType]

theorem mem_uses_union {members : List Ty} : use ∈ (type home (.union members)).uses ↔
    (.named "NoneType" ∉ members ∧ use = .typing "Union" ∨
      .named "NoneType" ∈ members ∧ (use = .typing "Optional" ∨
        (Ty.union members).operands.length ≠ 1 ∧ use = .typing "Union")) ∨
      ∃ operand ∈ (Ty.union members).operands, use ∈ (type home operand).uses := by
  have hany : members.any (·.isNamed "NoneType") = true ↔ .named "NoneType" ∈ members := by
    simp [List.any_eq_true, Ty.isNamed_iff]
  rw [type, uses_unionType, unionMembers_eq_map, List.length_map, List.mem_append]
  refine or_congr ?_ (by simp [List.mem_flatMap])
  by_cases hnone : .named "NoneType" ∈ members
  · rw [if_pos (hany.mpr hnone), or_iff_right (fun h => h.1 hnone), and_iff_right hnone]
    by_cases hothers : (Ty.union members).operands.length = 1 <;> simp [hothers]
  · rw [if_neg (mt hany.mp hnone), or_iff_left (fun h => hnone h.1), and_iff_right hnone]
    exact List.mem_singleton

theorem uses_of_needs {t : Ty} (h : t.Needs home use) : use ∈ (type home t).uses := by
  induction h with
  | typingName name =>
      have htext : nameType home ("typing." ++ name) = .ofTyping name := by
        rw [nameType, if_neg (by simp), after?_append]
      rw [type, htext]
      exact List.mem_singleton_self _
  | @dotted module last hlast hhome htyping =>
      have hnone : module ++ '.' :: last ≠ "NoneType" := by
        intro heq
        have hdot : '.' ∈ module ++ '.' :: last := by simp
        rw [heq] at hdot
        exact absurd hdot (by decide)
      have hafter : Text.after? "typing." (module ++ '.' :: last) = none := by
        cases h : Text.after? "typing." (module ++ '.' :: last) with
        | none => rfl
        | some name => exact absurd (append_of_after? h).symm (htyping name)
      rw [type, nameType, if_neg hnone, hafter, splitLastDot_dotted module hlast]
      dsimp only
      rw [if_neg hhome]
      exact List.mem_singleton_self _
  | anything => exact List.mem_singleton_self _
  | capital hbase hword =>
      exact (mem_uses_parametrized hbase).mpr (.inl (mem_uses_baseType.mpr
        (.inl ⟨_, hword, rfl, rfl⟩)))
  | base hbase hother _ ih =>
      exact (mem_uses_parametrized hbase).mpr (.inl (mem_uses_baseType.mpr (.inr ⟨hother, ih⟩)))
  | @operand t operand use hoperand _ ih =>
      cases t with
      | generic | tuple | callable =>
          exact (mem_uses_parametrized rfl).mpr (.inr ⟨operand, hoperand, ih⟩)
      | union => exact mem_uses_union.mpr (.inr ⟨operand, hoperand, ih⟩)
      | _ => cases hoperand
  | union hnone => exact mem_uses_union.mpr (.inl (.inl ⟨hnone, rfl⟩))
  | optional hnone => exact mem_uses_union.mpr (.inl (.inr ⟨hnone, .inl rfl⟩))
  | optionalUnion hnone hothers =>
      exact mem_uses_union.mpr (.inl (.inr ⟨hnone, .inr ⟨hothers, rfl⟩⟩))

theorem needs_of_baseType {t base : Ty} (hbase : t.base? = some base)
    (ih : use ∈ (type home base).uses → base.Needs home use)
    (h : use ∈ (baseType base (type home base)).uses) : t.Needs home use := by
  rcases mem_uses_baseType.mp h with ⟨pair, hpair, rfl, rfl⟩ | ⟨hother, hu⟩
  · exact .capital hbase hpair
  · exact .base hbase hother (ih hu)

mutual

-- The cases are those of the text.
theorem needs_of_uses : ∀ t : Ty, use ∈ (type home t).uses → t.Needs home use
  | .named _, h => mem_uses_nameType h
  | .anything, h => by
      obtain rfl := List.mem_singleton.mp h
      exact .anything
  | .nothing, h | .parameter _, h => nomatch h
  | .generic base params, h => by
      rcases (mem_uses_parametrized rfl).mp h with hbase | ⟨operand, hoperand, hu⟩
      · exact needs_of_baseType rfl (needs_of_uses base) hbase
      · exact .operand hoperand (needs_of_uses_all params operand hoperand hu)
  | .tuple base params, h => by
      rcases (mem_uses_parametrized rfl).mp h with hbase | ⟨operand, hoperand, hu⟩
      · exact needs_of_baseType rfl (needs_of_uses base) hbase
      · exact .operand hoperand (needs_of_uses_all params operand hoperand hu)
  | .callable base args result, h => by
      rcases (mem_uses_parametrized rfl).mp h with hbase | ⟨operand, hoperand, hu⟩
      · exact needs_of_baseType rfl (needs_of_uses base) hbase
      · refine .operand hoperand ?_
        rcases List.mem_append.mp hoperand with hargs | hresult
        · exact needs_of_uses_all args operand hargs hu
        · rw [List.mem_singleton.mp hresult] at hu ⊢
          exact needs_of_uses result hu
  | .union members, h => by
      rcases mem_uses_union.mp h with
        (⟨hnone, rfl⟩ | ⟨hnone, rfl | ⟨hothers, rfl⟩⟩) | ⟨operand, hoperand, hu⟩
      · exact .union hnone
      · exact .optional hnone
      · exact .optionalUnion hnone hothers
      · exact .operand hoperand (needs_of_uses_all members operand
          (List.mem_of_mem_filter hoperand) hu)

theorem needs_of_uses_all : ∀ ts : List Ty, ∀ t ∈ ts, use ∈ (type home t).uses → t.Needs home use
  | first :: rest, t, ht, h => by
      rcases List.mem_cons.mp ht with heq | ht
      · rw [heq] at h ⊢
        exact needs_of_uses first h
      · exact needs_of_uses_all rest t ht h

end

theorem mem_uses_type {t : Ty} : use ∈ (type home t).uses ↔ t.Needs home use :=
  ⟨needs_of_uses t, uses_of_needs⟩

end Print

end TypeStub
