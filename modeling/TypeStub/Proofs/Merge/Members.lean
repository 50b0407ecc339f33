import Mathlib.Data.List.Perm.Basic
import TypeStub.Proofs.Merge.Functions

namespace TypeStub.Merge

-- The type that an accessor gives its property: a getter returns it, and a setter takes it as its
-- second parameter.
def told? (d : Definition) : Option Ty :=
  d.signature?.bind fun signature =>
    match d.decorator.role with
    | .property => some signature.returns
    | .setter _ => signature.params[1]?.map (·.type)
    | _ => none

-- The last type told that says more than any object does.
def lastTold (group : List Definition) : Ty :=
  (((group.filterMap told?).filter isInformative).getLast?).getD .anything

-- What properties are made of definitions: one constant for each name, in order of first definition.
structure Properties (defs : List Definition) (properties : List Constant) : Prop where
  names : InFirstOrder (properties.map (·.name)) (defs.map (·.name))
  types : ∀ c ∈ properties, c.type = lastTold (named defs c.name)

section

variable {defs group : List Definition} {line : Option Int}

theorem accessor_ok {d : Definition} {type : Option Ty} (h : accessor line d = .ok type) :
    type = (told? d).filter isInformative := by
  unfold accessor at h
  split at h
  · simp at h
  · rename_i signature hs
    split at h
    · obtain rfl := (Except.ok.injEq ..).mp h
      rw [told?, hs, Option.bind_some, accessorType]
      cases d.decorator.role with
      | property => simp [Option.filter]
      | setter target =>
          generalize signature.params = params
          rcases params with _ | ⟨_, _ | ⟨value, rest⟩⟩
          · rfl
          · rfl
          · simp [Option.filter]
      | _ => rfl
    · simp at h

theorem filterMap_of_accessors {told : List (Option Ty)}
    (h : List.Forall₂ (fun d type => accessor line d = .ok type) group told) :
    told.filterMap id = (group.filterMap told?).filter isInformative := by
  induction h with
  | nil => rfl
  | @cons d _ _ _ hd _ ih =>
      rw [accessor_ok hd, List.filterMap_cons, List.filterMap_cons]
      cases told? d with
      | none => simpa using ih
      | some given => cases hi : isInformative given <;> simpa [hi, Option.filter] using ih

theorem property_ok {c : Constant} (h : property line group = .ok c) :
    c.name = groupName group ∧ c.type = lastTold group := by
  simp only [property, bind, Except.bind] at h
  split at h
  · simp at h
  · rename_i told htold
    obtain rfl := (Except.ok.injEq ..).mp h
    refine ⟨rfl, ?_⟩
    rw [lastTold, ← filterMap_of_accessors (mapM_except_ok_iff.mp htold)]

-- A group makes a property where all its decorators are a property's, and a method where none is.
inductive MemberOf (line : Option Int) (group : List Definition) : Member → Prop
  | method {f : StubFunction} (hn : hasProperty group = false) (h : function line group = .ok f) :
      MemberOf line group (.method f)
  | property {c : Constant} (hp : hasProperty group = true)
      (ha : group.all (·.decorator.isProperty) = true) (h : property line group = .ok c) :
      MemberOf line group (.property c)

theorem memberOf_member {m : Member} (h : member line group = .ok m) : MemberOf line group m := by
  simp only [member, bind, Except.bind] at h
  split at h
  · simp at h
  · split at h
    · rename_i hp
      split at h
      · rename_i ha
        split at h
        · simp at h
        · rename_i hc
          obtain rfl := (Except.ok.injEq ..).mp h
          exact .property hp ha hc
      · simp [throw, throwThe, MonadExceptOf.throw] at h
    · rename_i hn
      split at h
      · simp at h
      · rename_i hf
        obtain rfl := (Except.ok.injEq ..).mp h
        exact .method (by simpa using hn) hf

theorem memberOf_classMembers {members : List Member} (h : classMembers line defs = .ok members) :
    List.Forall₂ (MemberOf line) (groups defs) members :=
  (mapM_except_ok_iff.mp h).imp fun _ _ => memberOf_member

-- Without mixed groups, a decorator of a property is a matter of the name.
theorem isProperty_congr {members : List Member}
    (h : List.Forall₂ (MemberOf line) (groups defs) members) :
    ∀ d ∈ defs, ∀ e ∈ defs, d.name = e.name → d.decorator.isProperty = e.decorator.isProperty := by
  intro d hd e he hname
  have hgroup : named defs d.name ∈ groups defs := by
    rw [groups_eq]
    exact List.mem_map_of_mem (List.mem_eraseDups.mpr (List.mem_map_of_mem hd))
  obtain ⟨m, -, hm⟩ := exists_of_mem_forall₂ h.flip hgroup
  have hd' : d ∈ named defs d.name := mem_named.mpr ⟨hd, rfl⟩
  have he' : e ∈ named defs d.name := mem_named.mpr ⟨he, hname.symm⟩
  cases hm with
  | method hn _ =>
      have hnone := List.any_eq_false.mp hn
      rw [Bool.eq_false_iff.mpr (hnone d hd'), Bool.eq_false_iff.mpr (hnone e he')]
  | property _ ha _ =>
      have hall := List.all_eq_true.mp ha
      rw [hall d hd', hall e he']

theorem MemberOf.any_plain {m : Member} (h : MemberOf line group m) (hne : group ≠ []) :
    group.any (!·.decorator.isProperty) = !hasProperty group := by
  cases h with
  | method hn _ =>
      obtain ⟨d, hd⟩ := List.exists_mem_of_ne_nil group hne
      rw [hn]
      exact List.any_eq_true.mpr ⟨d, hd, by simpa using List.any_eq_false.mp hn d hd⟩
  | property hp ha _ =>
      rw [hp]
      exact List.any_eq_false.mpr fun d hd => by simp [List.all_eq_true.mp ha d hd]

theorem methods_forall₂ {groups : List (List Definition)} {members : List Member}
    (h : List.Forall₂ (MemberOf line) groups members) :
    List.Forall₂ (fun group f => function line group = .ok f)
      (groups.filter (!hasProperty ·)) (members.filterMap Member.method?) := by
  induction h with
  | nil => exact .nil
  | cons hm _ ih =>
      cases hm with
      | method hn hf => simpa [hn, Member.method?] using ⟨hf, ih⟩
      | property hp _ _ => simpa [hp, List.filterMap_cons, Member.method?] using ih

theorem properties_forall₂ {groups : List (List Definition)} {members : List Member}
    (h : List.Forall₂ (MemberOf line) groups members) :
    List.Forall₂ (fun group c => property line group = .ok c)
      (groups.filter hasProperty) (members.filterMap Member.property?) := by
  induction h with
  | nil => exact .nil
  | cons hm _ ih =>
      cases hm with
      | method hn _ => simpa [hn, List.filterMap_cons, Member.property?] using ih
      | property hp _ hc => simpa [hp, Member.property?] using ⟨hc, ih⟩

theorem properties_of_groups {properties : List Constant}
    (h : List.Forall₂ (fun group c => property line group = .ok c) (groups defs) properties) :
    Properties defs properties := by
  refine ⟨inFirstOrder_groups (h.imp fun _ _ hc => (property_ok hc).1), fun c hc => ?_⟩
  obtain ⟨group, hgroup, hmerged⟩ := exists_of_mem_forall₂ h hc
  obtain ⟨hname, htype⟩ := property_ok hmerged
  rw [hname, ← eq_named_of_mem_groups hgroup, htype]

-- What the members of a class are made of: a name has accessors of a property or it has none, and
-- it makes one constant or one method accordingly.
structure Members (defs : List Definition) (methods : List StubFunction)
    (properties : List Constant) : Prop where
  apart : ∀ d ∈ defs, ∀ e ∈ defs, d.name = e.name →
    d.decorator.isProperty = e.decorator.isProperty
  methods : Functions (defs.filter (!·.decorator.isProperty)) methods
  properties : Properties (defs.filter (·.decorator.isProperty)) properties

theorem members_of_classMembers {members : List Member}
    (h : classMembers line defs = .ok members) :
    Members defs (members.filterMap Member.method?) (members.filterMap Member.property?) := by
  have hmembers := memberOf_classMembers h
  have hsame := isProperty_congr hmembers
  have hplain : groups (defs.filter (!·.decorator.isProperty)) =
      (groups defs).filter (!hasProperty ·) := by
    rw [groups_filter fun d hd e he hname => by rw [hsame d hd e he hname]]
    refine List.filter_congr fun group hgroup => ?_
    obtain ⟨m, -, hm⟩ := exists_of_mem_forall₂ hmembers.flip hgroup
    exact hm.any_plain (isGroup_of_mem_groups hgroup).ne_nil
  have hfamily : groups (defs.filter (·.decorator.isProperty)) =
      (groups defs).filter hasProperty := groups_filter hsame
  have hmethods := methods_forall₂ hmembers
  have hproperties := properties_forall₂ hmembers
  rw [← hplain] at hmethods
  rw [← hfamily] at hproperties
  exact ⟨hsame, functions_of_groups hmethods, properties_of_groups hproperties⟩

-- The definitions of a class make a member for each name: a method or a property.
theorem Members.names_perm {methods : List StubFunction} {properties : List Constant}
    (h : Members defs methods properties) :
    (properties.map (·.name) ++ methods.map (·.name)).Perm (defs.map (·.name)).eraseDups := by
  have hproperty : ∀ a, a ∈ properties.map (·.name) ↔
      ∃ d ∈ defs, d.decorator.isProperty = true ∧ d.name = a := by
    intro a
    rw [h.properties.names.mem_iff]
    simp [and_assoc]
  have hmethod : ∀ a, a ∈ methods.map (·.name) ↔
      ∃ d ∈ defs, d.decorator.isProperty = false ∧ d.name = a := by
    intro a
    rw [h.methods.names.mem_iff]
    simp [and_assoc]
  have hfirsts := inFirstOrder_eraseDups (defs.map (·.name))
  refine (List.perm_ext_iff_of_nodup ?_ hfirsts.nodup).mpr fun a => ?_
  · refine List.nodup_append.mpr ⟨h.properties.names.nodup, h.methods.names.nodup, ?_⟩
    rintro a ha b hb rfl
    obtain ⟨d, hd, hproperty, hname⟩ := (hproperty a).mp ha
    obtain ⟨e, he, hplain, hsame⟩ := (hmethod a).mp hb
    rw [h.apart d hd e he (hname.trans hsame.symm), hplain] at hproperty
    exact absurd hproperty (by decide)
  · rw [hfirsts.mem_iff, List.mem_append, hproperty, hmethod, List.mem_map]
    constructor
    · rintro (⟨d, hd, -, hname⟩ | ⟨d, hd, -, hname⟩)
      · exact ⟨d, hd, hname⟩
      · exact ⟨d, hd, hname⟩
    · rintro ⟨d, hd, hname⟩
      cases hp : d.decorator.isProperty with
      | true => exact .inl ⟨d, hd, hp, hname⟩
      | false => exact .inr ⟨d, hd, hp, hname⟩

end

-- How the definitions of different names lie among each other does not matter to merging.

-- Two lists of definitions with the same definitions of each name, in the same order.
def Interleaved (defs defs' : List Definition) : Prop := ∀ name, named defs' name = named defs name

-- Two lists of definitions with the same order of first definition.
def SameOrder (defs defs' : List Definition) : Prop :=
  (defs'.map (·.name)).eraseDups = (defs.map (·.name)).eraseDups

section

variable {defs defs' : List Definition}

theorem Interleaved.groups_eq_map (h : Interleaved defs defs') :
    groups defs' = (defs'.map (·.name)).eraseDups.map (named defs) := by
  rw [groups_eq]
  exact List.map_congr_left fun name _ => h name

theorem Interleaved.mem_names (h : Interleaved defs defs') (name : Text) :
    name ∈ defs'.map (·.name) ↔ name ∈ defs.map (·.name) := by
  have hnamed : ∀ defs : List Definition,
      name ∈ defs.map (·.name) ↔ ∃ d, d ∈ named defs name := fun defs => by
    rw [List.mem_map]
    exact exists_congr fun d => mem_named.symm
  rw [hnamed, hnamed, h name]

theorem Interleaved.groups_perm (h : Interleaved defs defs') :
    (groups defs').Perm (groups defs) := by
  rw [h.groups_eq_map, groups_eq]
  refine List.Perm.map _ ((List.perm_ext_iff_of_nodup ?_ ?_).mpr fun name => ?_)
  · exact (inFirstOrder_eraseDups _).nodup
  · exact (inFirstOrder_eraseDups _).nodup
  · rw [List.mem_eraseDups, List.mem_eraseDups, h.mem_names]

theorem Interleaved.groups_congr (h : Interleaved defs defs') (ho : SameOrder defs defs') :
    groups defs' = groups defs := by
  rw [h.groups_eq_map, ho, groups_eq]

theorem mapM_perm {ε α β : Type} {f : α → Except ε β} {as as' : List α} {bs : List β}
    (hp : as'.Perm as) (h : as.mapM f = .ok bs) : ∃ bs', as'.mapM f = .ok bs' ∧ bs'.Perm bs := by
  obtain ⟨bs', hbs', hperm⟩ := List.perm_comp_forall₂ hp (mapM_except_ok_iff.mp h)
  exact ⟨bs', mapM_except_ok_iff.mpr hbs', hperm⟩

-- Another interleaving has the same functions, in the same order if the names come first in the
-- same order.
theorem moduleFunctions_interleaved {functions : List StubFunction}
    (h : Interleaved defs defs') (hf : moduleFunctions defs = .ok functions) :
    ∃ functions', moduleFunctions defs' = .ok functions' ∧ functions'.Perm functions ∧
      (SameOrder defs defs' → functions' = functions) := by
  obtain ⟨hnone, hmerged⟩ := moduleFunctions_eq_ok.mp hf
  have hperm := h.groups_perm
  obtain ⟨functions', hmerged', hresult⟩ := mapM_perm (hperm.filter _) hmerged
  have hf' : moduleFunctions defs' = .ok functions' :=
    moduleFunctions_eq_ok.mpr ⟨(hnone ▸ hperm.filter hasProperty).eq_nil, hmerged'⟩
  refine ⟨functions', hf', hresult, fun ho => ?_⟩
  have hsame : moduleFunctions defs' = moduleFunctions defs := by
    rw [moduleFunctions, moduleFunctions, h.groups_congr ho]
  exact (Except.ok.injEq ..).mp (hf'.symm.trans (hsame.trans hf))

theorem classMembers_interleaved {line : Option Int} {members : List Member}
    (h : Interleaved defs defs') (hm : classMembers line defs = .ok members) :
    ∃ members', classMembers line defs' = .ok members' ∧ members'.Perm members ∧
      (SameOrder defs defs' → members' = members) := by
  obtain ⟨members', hm', hresult⟩ := mapM_perm h.groups_perm hm
  refine ⟨members', hm', hresult, fun ho => ?_⟩
  have hsame : classMembers line defs' = classMembers line defs := by
    rw [classMembers, classMembers, h.groups_congr ho]
  exact (Except.ok.injEq ..).mp (hm'.symm.trans (hsame.trans hm))

end

end TypeStub.Merge
