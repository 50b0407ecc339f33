import TypeStub.Proofs.Module.Types
import TypeStub.Proofs.Print.Needs

-- A module with None last in the unions of all its types.
namespace TypeStub

def Parameter.noneLast (p : Parameter) : Parameter := { p with type := p.type.noneLast }

def Mutator.noneLast (m : Mutator) : Mutator := { m with type := m.type.noneLast }

def Signature.noneLast (s : Signature) : Signature where
  params := s.params.map Parameter.noneLast
  starArgs := s.starArgs.map Parameter.noneLast
  starStarArgs := s.starStarArgs.map Parameter.noneLast
  returns := s.returns.noneLast
  exceptions := s.exceptions.map Ty.noneLast
  mutators := s.mutators.map Mutator.noneLast

def StubFunction.noneLast (f : StubFunction) : StubFunction :=
  { f with signatures := f.signatures.map Signature.noneLast }

def Constant.noneLast (c : Constant) : Constant := { c with type := c.type.noneLast }

def Alias.noneLast (a : Alias) : Alias := { a with target := a.target.noneLast }

def TypeVariable.noneLast (v : TypeVariable) : TypeVariable :=
  { v with constraints := v.constraints.map Ty.noneLast }

def StubClass.noneLast (c : StubClass) : StubClass where
  name := c.name
  parents := c.parents.map Ty.noneLast
  metaclass := c.metaclass.map Ty.noneLast
  constants := c.constants.map Constant.noneLast
  methods := c.methods.map StubFunction.noneLast

def StubModule.noneLast (m : StubModule) : StubModule where
  name := m.name
  aliases := m.aliases.map Alias.noneLast
  constants := m.constants.map Constant.noneLast
  typeVariables := m.typeVariables.map TypeVariable.noneLast
  classes := m.classes.map StubClass.noneLast
  functions := m.functions.map StubFunction.noneLast

theorem Parameter.IsStar.noneLast {container : Text} {given : List Ty} {p : Parameter}
    (hg : Ty.noneLastAll given = given) (h : p.IsStar container given) :
    p.noneLast.IsStar container given := by
  obtain ⟨hname, hoptional, hkeyword, htype | ⟨element, htype⟩⟩ := h
  · exact ⟨hname, hoptional, hkeyword, .inl (congrArg Ty.noneLast htype)⟩
  · refine ⟨hname, hoptional, hkeyword, .inr ⟨element.noneLast, ?_⟩⟩
    have hparams : Ty.noneLastAll (given ++ [element]) = given ++ [element.noneLast] := by
      rw [Ty.noneLastAll_eq] at hg ⊢
      rw [List.map_append, hg]
      rfl
    rw [Parameter.noneLast, htype, Ty.noneLast, hparams]

theorem Signature.Shaped.noneLast {s : Signature} (h : s.Shaped) : s.noneLast.Shaped where
  names := by
    rw [Signature.noneLast, List.forall_mem_map]
    exact h.names
  keywordsLast := by
    obtain ⟨plain, others, hsplit, hplain, hothers⟩ := h.keywordsLast
    refine ⟨plain.map Parameter.noneLast, others.map Parameter.noneLast, ?_, ?_, ?_⟩
    · rw [Signature.noneLast, hsplit, List.map_append]
    · rw [List.forall_mem_map]
      exact hplain
    · rw [List.forall_mem_map]
      exact hothers
  star p hp := by
    obtain ⟨q, hq, rfl⟩ := Option.map_eq_some_iff.mp hp
    exact (h.star q hq).noneLast rfl
  doubleStar p hp := by
    obtain ⟨q, hq, rfl⟩ := Option.map_eq_some_iff.mp hp
    exact (h.doubleStar q hq).noneLast rfl
  mutated := by
    rw [Signature.noneLast, List.forall_mem_map]
    intro m hm
    obtain ⟨p, hp, hname⟩ := h.mutated m hm
    refine ⟨p.noneLast, ?_, hname⟩
    simp only [List.mem_append, Option.mem_toList, Option.map_eq_some_iff, List.mem_map] at hp ⊢
    rcases hp with (hp | hp) | hp
    · exact .inl (.inl ⟨p, hp, rfl⟩)
    · exact .inl (.inr ⟨p, hp, rfl⟩)
    · exact .inr ⟨p, hp, rfl⟩

theorem StubFunction.Shaped.noneLast {f : StubFunction} (h : f.Shaped) : f.noneLast.Shaped where
  name := h.name
  native he := by
    obtain ⟨hs, hk⟩ := h.native he
    exact ⟨by rw [StubFunction.noneLast, hs]; rfl, hk⟩
  overloads he := by simpa [StubFunction.noneLast] using h.overloads he
  allocator := h.allocator
  signatures := by
    rw [StubFunction.noneLast, List.forall_mem_map]
    exact fun s hs => (h.signatures s hs).noneLast

-- A function stays as it is where its types do.
theorem Signature.noneLast_eq {s : Signature} (h : ∀ t ∈ s.types, t.noneLast = t) :
    s.noneLast = s := by
  simp only [types, List.mem_append, List.mem_map, List.mem_singleton, Option.mem_toList] at h
  have hparam : ∀ p : Parameter, p.type.noneLast = p.type → p.noneLast = p := fun p hp => by
    rw [Parameter.noneLast, hp]
  have hoption : ∀ o : Option Parameter, (∀ p ∈ o, p.type.noneLast = p.type) →
      o.map Parameter.noneLast = o := fun o ho => by
    cases o with
    | none => rfl
    | some p => exact congrArg some (hparam p (ho p rfl))
  have hparams : s.params.map Parameter.noneLast = s.params :=
    (List.map_congr_left fun p hp =>
      hparam p (h _ (.inl (.inl (.inl (.inl (.inl ⟨p, hp, rfl⟩))))))).trans (List.map_id _)
  have hstar := hoption s.starArgs fun p hp => h _ (.inl (.inl (.inl (.inl (.inr ⟨p, hp, rfl⟩)))))
  have hdouble := hoption s.starStarArgs fun p hp => h _ (.inl (.inl (.inl (.inr ⟨p, hp, rfl⟩))))
  have hexceptions : s.exceptions.map Ty.noneLast = s.exceptions :=
    (List.map_congr_left fun t ht => h t (.inl (.inr ht))).trans (List.map_id _)
  have hmutators : s.mutators.map Mutator.noneLast = s.mutators := by
    refine (List.map_congr_left fun m hm => ?_).trans (List.map_id _)
    have htype : m.type.noneLast = m.type := h _ (.inr ⟨m, hm, rfl⟩)
    rw [Mutator.noneLast, htype]
    rfl
  rw [noneLast, hparams, hstar, hdouble, h s.returns (.inl (.inl (.inr rfl))), hexceptions, hmutators]

theorem StubFunction.noneLast_eq {f : StubFunction} (h : ∀ t ∈ f.types, t.noneLast = t) :
    f.noneLast = f := by
  have hsignatures : f.signatures.map Signature.noneLast = f.signatures :=
    (List.map_congr_left fun s hs => Signature.noneLast_eq fun t ht =>
      h t (List.mem_flatMap_of_mem hs ht)).trans (List.map_id _)
  rw [noneLast, hsignatures]

-- A type that names nothing in such a module.
def Ty.Outside (home : Text) (t : Ty) : Prop :=
  ∀ last, '.' ∉ last → named (home ++ '.' :: last) ∉ t.parts

theorem Ty.Outside.mono {home : Text} {t u : Ty} (h : t.Outside home) (hu : u.parts ⊆ t.parts) :
    u.Outside home := fun last hlast hm => h last hlast (hu hm)

theorem Ty.parts_base {t base : Ty} (h : t.base? = some base) : base.parts ⊆ t.parts := by
  cases t <;> simp only [base?, Option.some.injEq, reduceCtorEq] at h <;> subst h <;>
    simp [parts, List.subset_def] <;> tauto

theorem Ty.parts_operand {t operand : Ty} (h : operand ∈ t.operands) : operand.parts ⊆ t.parts := by
  intro part hp
  cases t with
  | generic base params | tuple base params =>
      exact List.mem_cons_of_mem _ (List.mem_append_right _ (mem_partsAll.mpr ⟨operand, h, hp⟩))
  | callable base args result =>
      rcases List.mem_append.mp h with h | h
      · exact List.mem_cons_of_mem _ (List.mem_append_left _ (List.mem_append_right _
          (mem_partsAll.mpr ⟨operand, h, hp⟩)))
      · obtain rfl := List.mem_singleton.mp h
        exact List.mem_cons_of_mem _ (List.mem_append_right _ hp)
  | union members =>
      exact List.mem_cons_of_mem _ (mem_partsAll.mpr ⟨operand, List.mem_of_mem_filter h, hp⟩)
  | _ => cases h

namespace Print

section

variable {home other : Text}

theorem operands_noneLast (members : List Ty) :
    (Ty.union (Ty.others members ++ members.filter (·.isNone))).operands = Ty.others members := by
  have hothers : (Ty.others members).filter (!·.isNone) = Ty.others members := by
    refine List.filter_eq_self.mpr fun t ht => ?_
    obtain ⟨u, hu, rfl⟩ := List.mem_map.mp ht
    rw [Ty.isNone_noneLast]
    exact (List.mem_filter.mp hu).2
  have hnones : (members.filter (·.isNone)).filter (!·.isNone) = [] := by
    rw [List.filter_filter, List.filter_eq_nil_iff]
    simp
  show (Ty.others members ++ members.filter (·.isNone)).filter (!·.isNone) = _
  rw [List.filter_append, hothers, hnones, List.append_nil]

theorem any_isNone_noneLast (members : List Ty) :
    (Ty.others members ++ members.filter (·.isNone)).any Ty.isNone = members.any Ty.isNone := by
  have hothers : (Ty.others members).any Ty.isNone = false := by
    rw [List.any_eq_false]
    intro t ht
    obtain ⟨u, hu, rfl⟩ := List.mem_map.mp ht
    rw [Ty.isNone_noneLast]
    simpa using (List.mem_filter.mp hu).2
  rw [List.any_append, hothers, List.any_filter]
  simp

mutual

-- A type is printed with None apart, wherever in a union it is.
theorem type_noneLast : ∀ t : Ty, type home t.noneLast = type home t
  | .named _ | .anything | .nothing | .parameter _ => rfl
  | .generic base params => by rw [Ty.noneLast, type, type, types_noneLast params]
  | .tuple base params => by rw [Ty.noneLast, type, type, types_noneLast params]
  | .callable base args result => by
      rw [Ty.noneLast, type, type, types_noneLast args, type_noneLast result]
  | .union members => by
      have hmembers : unionMembers home (Ty.others members ++ members.filter (·.isNone)) =
          unionMembers home members := by
        rw [unionMembers_eq_map, operands_noneLast, Ty.others, List.map_map]
        exact unionMembers_noneLast members
      rw [Ty.noneLast_union, type, type, hmembers]
      exact congrArg (unionType · _) (any_isNone_noneLast members)

theorem types_noneLast : ∀ ts : List Ty, types home (Ty.noneLastAll ts) = types home ts
  | [] => rfl
  | t :: rest => by rw [Ty.noneLastAll, types, types, type_noneLast t, types_noneLast rest]

theorem unionMembers_noneLast : ∀ members : List Ty,
    (members.filter (!·.isNone)).map (type home ∘ Ty.noneLast) = unionMembers home members
  | [] => rfl
  | t :: rest => by
      have hrest := unionMembers_noneLast rest
      have hnone : t.isNamed "NoneType" = t.isNone := rfl
      rw [unionMembers, List.filter_cons, hnone]
      cases t.isNone with
      | true => exact hrest
      | false => exact congrArg₂ (· :: ·) (type_noneLast t) hrest

end

theorem nameType_outside {name : Text} (h : ∀ last, '.' ∉ last → name ≠ home ++ '.' :: last)
    (ho : ∀ last, '.' ∉ last → name ≠ other ++ '.' :: last) :
    nameType other name = nameType home name := by
  unfold nameType
  split
  · rfl
  split
  · rfl
  split
  · rename_i module last hsplit
    obtain ⟨rfl, hlast⟩ := eq_of_splitLastDot hsplit
    have hhome : module ≠ home := fun he => h last hlast (by rw [he])
    have hother : module ≠ other := fun he => ho last hlast (by rw [he])
    rw [if_neg hhome, if_neg hother]
  · rfl

mutual

-- A type that names nothing in either of two modules is printed alike in both.
theorem type_outside : ∀ t : Ty, t.Outside home → t.Outside other → type other t = type home t
  | .named name, h, ho => by
      refine nameType_outside (fun last hlast he => ?_) fun last hlast he => ?_
      · exact h last hlast (by rw [he]; exact List.mem_singleton_self _)
      · exact ho last hlast (by rw [he]; exact List.mem_singleton_self _)
  | .anything, _, _ | .nothing, _, _ | .parameter _, _, _ => rfl
  | .generic base params, h, ho => by
      rw [type, type, type_outside base (h.mono (Ty.parts_base rfl)) (ho.mono (Ty.parts_base rfl)),
        types_outside params (fun t ht => h.mono (Ty.parts_operand ht)) fun t ht =>
          ho.mono (Ty.parts_operand ht)]
  | .tuple base params, h, ho => by
      rw [type, type, type_outside base (h.mono (Ty.parts_base rfl)) (ho.mono (Ty.parts_base rfl)),
        types_outside params (fun t ht => h.mono (Ty.parts_operand ht)) fun t ht =>
          ho.mono (Ty.parts_operand ht)]
  | .callable base args result, h, ho => by
      have hargs : ∀ t ∈ args, t ∈ (Ty.callable base args result).operands := fun t ht =>
        List.mem_append_left _ ht
      have hresult : result ∈ (Ty.callable base args result).operands :=
        List.mem_append_right _ (List.mem_singleton_self _)
      rw [type, type, type_outside base (h.mono (Ty.parts_base rfl)) (ho.mono (Ty.parts_base rfl)),
        types_outside args (fun t ht => h.mono (Ty.parts_operand (hargs t ht))) fun t ht =>
          ho.mono (Ty.parts_operand (hargs t ht)),
        type_outside result (h.mono (Ty.parts_operand hresult)) (ho.mono (Ty.parts_operand hresult))]
  | .union members, h, ho => by
      have hparts : ∀ t ∈ members, t.parts ⊆ (Ty.union members).parts := fun t ht part hp =>
        List.mem_cons_of_mem _ (Ty.mem_partsAll.mpr ⟨t, ht, hp⟩)
      rw [type, type, unionMembers_outside members (fun t ht => h.mono (hparts t ht)) fun t ht =>
        ho.mono (hparts t ht)]

theorem types_outside : ∀ ts : List Ty, (∀ t ∈ ts, t.Outside home) → (∀ t ∈ ts, t.Outside other) →
    types other ts = types home ts
  | [], _, _ => rfl
  | t :: rest, h, ho => by
      rw [types, types, type_outside t (h t (by simp)) (ho t (by simp)),
        types_outside rest (fun u hu => h u (by simp [hu])) fun u hu => ho u (by simp [hu])]

theorem unionMembers_outside : ∀ members : List Ty, (∀ t ∈ members, t.Outside home) →
    (∀ t ∈ members, t.Outside other) → unionMembers other members = unionMembers home members
  | [], _, _ => rfl
  | t :: rest, h, ho => by
      rw [unionMembers, unionMembers, type_outside t (h t (by simp)) (ho t (by simp)),
        unionMembers_outside rest (fun u hu => h u (by simp [hu])) fun u hu => ho u (by simp [hu])]

end

-- So both together.
theorem type_again {t : Ty} (h : t.Outside home ∧ t.Outside other) :
    type other t.noneLast = type home t := by
  rw [type_noneLast, type_outside t h.1 h.2]

theorem parameter_again {p : Parameter} (h : p.type.Outside home ∧ p.type.Outside other) :
    parameter other p.noneLast = parameter home p := by
  have htype : type other p.noneLast.type = type home p.type := type_again h
  have hobject : p.noneLast.type.isNamed "object" = p.type.isNamed "object" :=
    Ty.isNamed_noneLast _ _
  rw [parameter, parameter, htype, hobject]
  rfl

-- The element of a star parameter is a part of its type.
theorem starParameter_again {stars : Text} {p : Parameter}
    (h : p.type.Outside home ∧ p.type.Outside other) :
    starParameter other stars p.noneLast = starParameter home stars p := by
  have htype : type other p.noneLast.type = type home p.type := type_again h
  unfold starParameter
  cases hp : p.type with
  | generic base params =>
      have hnone : p.noneLast.type = .generic base (params.map Ty.noneLast) := by
        rw [Parameter.noneLast, hp, Ty.noneLast, Ty.noneLastAll_eq]
      rw [hnone, hp] at htype
      rw [hnone]
      dsimp only
      rw [List.getLast?_map, htype]
      cases hlast : params.getLast? with
      | none => rfl
      | some element =>
          have hparts : element.parts ⊆ p.type.parts := by
            rw [hp]
            exact Ty.parts_operand (List.mem_of_getLast? hlast)
          have helement : type other element.noneLast = type home element :=
            type_again ⟨h.1.mono hparts, h.2.mono hparts⟩
          simp only [Option.map_some, helement]
          rfl
  | _ =>
      have hnone : p.noneLast.type = p.type.noneLast := rfl
      rw [hnone, hp]
      rfl

theorem parameters_again {s : Signature} (h : ∀ t ∈ s.types, t.Outside home ∧ t.Outside other) :
    parameters other s.noneLast = parameters home s := by
  simp only [Signature.types, List.mem_append, List.mem_map, Option.mem_toList] at h
  have hparams : ∀ ps : List Parameter, (∀ p ∈ ps, p ∈ s.params) →
      (ps.map Parameter.noneLast).map (parameter other) = ps.map (parameter home) := by
    intro ps hps
    rw [List.map_map]
    refine List.map_congr_left fun p hp => parameter_again (h p.type ?_)
    exact .inl (.inl (.inl (.inl (.inl ⟨p, hps p hp, rfl⟩))))
  have hstar : (s.starArgs.map Parameter.noneLast).map (starParameter other "*") =
      s.starArgs.map (starParameter home "*") := by
    rw [Option.map_map]
    refine Option.map_congr fun p hp => starParameter_again (h p.type ?_)
    exact .inl (.inl (.inl (.inl (.inr ⟨p, hp, rfl⟩))))
  have hdouble : (s.starStarArgs.map Parameter.noneLast).map (starParameter other "**") =
      s.starStarArgs.map (starParameter home "**") := by
    rw [Option.map_map]
    refine Option.map_congr fun p hp => starParameter_again (h p.type ?_)
    exact .inl (.inl (.inl (.inr ⟨p, hp, rfl⟩)))
  have htake : s.noneLast.params.takeWhile (!·.keywordOnly) =
      (s.params.takeWhile (!·.keywordOnly)).map Parameter.noneLast := by
    rw [Signature.noneLast, List.takeWhile_map]
    rfl
  have hdrop : ∀ n, s.noneLast.params.drop n = (s.params.drop n).map Parameter.noneLast :=
    fun n => List.map_drop.symm
  unfold parameters
  dsimp only
  rw [htake, List.length_map, hdrop, List.isEmpty_map,
    hparams _ fun p hp => (List.takeWhile_prefix _).subset hp,
    hparams _ fun p hp => List.drop_subset _ _ hp]
  dsimp only [Signature.noneLast]
  rw [hstar, hdouble]

theorem mutator_again {m : Mutator} (h : m.type.Outside home ∧ m.type.Outside other) :
    mutator other m.noneLast = mutator home m := by
  have htype : type other m.noneLast.type = type home m.type := type_again h
  rw [mutator, mutator, htype]
  rfl

theorem raised_again {t : Ty} (h : t.Outside home ∧ t.Outside other) :
    raised other t.noneLast = raised home t := by
  unfold raised
  rw [type_again h]

theorem signature_again {name : Text} {kind : FunctionKind} {s : Signature}
    (h : ∀ t ∈ s.types, t.Outside home ∧ t.Outside other) :
    signature other name kind s.noneLast = signature home name kind s := by
  have hparameters := parameters_again h
  simp only [Signature.types, List.mem_append, List.mem_map, List.mem_singleton] at h
  have hreturns : type other s.noneLast.returns = type home s.returns :=
    type_again (h _ (.inl (.inl (.inr rfl))))
  have hmutators : s.noneLast.mutators.map (mutator other) = s.mutators.map (mutator home) := by
    rw [Signature.noneLast, List.map_map]
    exact List.map_congr_left fun m hm => mutator_again (h _ (.inr ⟨m, hm, rfl⟩))
  have hraised : s.noneLast.exceptions.map (raised other) = s.exceptions.map (raised home) := by
    rw [Signature.noneLast, List.map_map]
    exact List.map_congr_left fun t ht => raised_again (h t (.inl (.inr ht)))
  rw [signature, signature, hparameters, hreturns, hmutators, hraised]

theorem function_again {f : StubFunction} (h : ∀ t ∈ f.types, t.Outside home ∧ t.Outside other) :
    function other f.noneLast = function home f := by
  have hsignatures : f.noneLast.signatures.map (signature other f.name f.kind) =
      f.signatures.map (signature home f.name f.kind) := by
    rw [StubFunction.noneLast, List.map_map]
    exact List.map_congr_left fun s hs =>
      signature_again fun t ht => h t (List.mem_flatMap_of_mem hs ht)
  rw [function, function, ← hsignatures]
  rfl

theorem constant_again {c : Constant} (h : c.type.Outside home ∧ c.type.Outside other) :
    constant other c.noneLast = constant home c := by
  have htype : type other c.noneLast.type = type home c.type := type_again h
  rw [constant, constant, htype]
  rfl

theorem aliasLine_again {a : Alias} (h : a.target.Outside home ∧ a.target.Outside other)
    (hhome : Text.after? (home ++ ".") a.name = none)
    (hother : Text.after? (other ++ ".") a.name = none) :
    aliasLine other a.noneLast = aliasLine home a := by
  have htype : type other a.target.noneLast = type home a.target := type_again h
  have himport : ∀ module member : Text,
      importLine other a.name module member = importLine home a.name module member := by
    intro module member
    unfold importLine
    rw [hhome, hother]
  have hassigned : (a.name ++ " = " ++ type other a.target.noneLast : Piece) =
      a.name ++ " = " ++ type home a.target := by rw [htype]
  unfold aliasLine
  cases ht : a.target with
  | named target =>
      have hnone : a.noneLast.target = .named target := by rw [Alias.noneLast, ht]; rfl
      rw [ht] at hassigned
      rw [hnone]
      dsimp only
      cases Text.splitLastDot target with
      | none => exact hassigned
      | some pair => exact congrArg (fun text : Text => (text : Piece)) (himport pair.1 pair.2)
  | _ =>
      have hnone : a.noneLast.target = a.target.noneLast := rfl
      rw [ht] at hassigned
      rw [hnone, ht]
      exact hassigned

theorem typeVariable_again {v : TypeVariable}
    (h : ∀ t ∈ v.constraints, t.Outside home ∧ t.Outside other) :
    typeVariable other v.noneLast = typeVariable home v := by
  have hconstraints : v.noneLast.constraints.map (fun t => (", " ++ type other t : Piece)) =
      v.constraints.map fun t => (", " ++ type home t : Piece) := by
    rw [TypeVariable.noneLast, List.map_map]
    refine List.map_congr_left fun t ht => ?_
    rw [Function.comp_apply, type_again (h t ht)]
  rw [typeVariable, typeVariable, hconstraints]
  rfl

theorem stubClass_again {c : StubClass} (h : ∀ t ∈ c.types, t.Outside home ∧ t.Outside other) :
    stubClass other c.noneLast = stubClass home c := by
  simp only [StubClass.types, List.mem_append, List.mem_map, Option.mem_toList,
    List.mem_flatMap] at h
  have hbases : classBases other c.noneLast = classBases home c := by
    have hparents : c.noneLast.parents.map (type other) = c.parents.map (type home) := by
      rw [StubClass.noneLast, List.map_map]
      exact List.map_congr_left fun t ht => type_again (h t (.inl (.inl (.inl ht))))
    have hmetaclass : c.noneLast.metaclass.map (fun t => ("metaclass=" ++ type other t : Piece)) =
        c.metaclass.map fun t => ("metaclass=" ++ type home t : Piece) := by
      rw [StubClass.noneLast, Option.map_map]
      refine Option.map_congr fun t ht => ?_
      rw [Function.comp_apply, type_again (h t (.inl (.inl (.inr ht))))]
    rw [classBases, classBases, hparents, hmetaclass]
  have hconstants : c.noneLast.constants.map
      (fun k => ("\n" ++ indentation ++ constant other k : Piece)) =
        c.constants.map fun k => ("\n" ++ indentation ++ constant home k : Piece) := by
    rw [StubClass.noneLast, List.map_map]
    refine List.map_congr_left fun k hk => ?_
    rw [Function.comp_apply, constant_again (h _ (.inl (.inr ⟨k, hk, rfl⟩)))]
  have hmethods : c.noneLast.methods.map (fun f => indented (function other f)) =
      c.methods.map fun f => indented (function home f) := by
    rw [StubClass.noneLast, List.map_map]
    refine List.map_congr_left fun f hf => ?_
    rw [Function.comp_apply, function_again fun t ht => h t (.inr ⟨f, hf, ht⟩)]
  have hempty : c.noneLast.constants.isEmpty = c.constants.isEmpty ∧
      c.noneLast.methods.isEmpty = c.methods.isEmpty :=
    ⟨List.isEmpty_map, List.isEmpty_map⟩
  unfold stubClass
  dsimp only
  rw [hbases, hconstants, hmethods, hempty.1, hempty.2]
  rfl

theorem map_again {α : Type} {items : List α} {noneLast : α → α} {text other : α → Piece}
    (h : ∀ item ∈ items, other (noneLast item) = text item) :
    (items.map noneLast).map other = items.map text := by
  rw [List.map_map]
  exact List.map_congr_left h

-- A module is printed alike under another name with None last, if no type in it names anything in a
-- module of either name.
theorem module_again {m : StubModule} (h : ∀ t ∈ m.types, t.Outside m.name ∧ t.Outside other)
    (hname : ∀ a ∈ m.aliases, Text.after? (m.name ++ ".") a.name = none)
    (hother : ∀ a ∈ m.aliases, Text.after? (other ++ ".") a.name = none) :
    Print.module { m.noneLast with name := other } = Print.module m := by
  simp only [StubModule.types, List.mem_append, List.mem_map, List.mem_flatMap] at h
  have hsections : sections { m.noneLast with name := other } = sections m := by
    have haliases : m.noneLast.aliases.map (aliasLine other) = m.aliases.map (aliasLine m.name) :=
      map_again fun a ha => aliasLine_again (h _ (.inl (.inl (.inl (.inl ⟨a, ha, rfl⟩)))))
        (hname a ha) (hother a ha)
    have hconstants : m.noneLast.constants.map (constant other) =
        m.constants.map (constant m.name) :=
      map_again fun c hc => constant_again (h _ (.inl (.inl (.inl (.inr ⟨c, hc, rfl⟩)))))
    have hvariables : m.noneLast.typeVariables.map (typeVariable other) =
        m.typeVariables.map (typeVariable m.name) :=
      map_again fun v hv => typeVariable_again fun t ht => h t (.inl (.inl (.inr ⟨v, hv, ht⟩)))
    have hclasses : m.noneLast.classes.map (stubClass other) = m.classes.map (stubClass m.name) :=
      map_again fun c hc => stubClass_again fun t ht => h t (.inl (.inr ⟨c, hc, ht⟩))
    have hfunctions : m.noneLast.functions.map (function other) =
        m.functions.map (function m.name) :=
      map_again fun f hf => function_again fun t ht => h t (.inr ⟨f, hf, ht⟩)
    rw [sections, sections, hconstants, hvariables, hclasses, hfunctions, haliases]
  rw [Print.module, Print.module, hsections]

end

end Print

end TypeStub
