import TypeStub.Merge
import TypeStub.Proofs.Ensures
import TypeStub.Proofs.Merge.FirstOrder

namespace TypeStub.Merge

-- The definitions of one name, in source order.
def named (defs : List Definition) (name : Text) : List Definition := defs.filter (·.name == name)

theorem groups_eq (defs : List Definition) :
    groups defs = (defs.map (·.name)).eraseDups.map (named defs) := rfl

theorem mem_named {defs : List Definition} {name : Text} {d : Definition} :
    d ∈ named defs name ↔ d ∈ defs ∧ d.name = name := by
  rw [named, List.mem_filter, beq_iff_eq]

theorem groupName_named {defs : List Definition} {name : Text} (h : name ∈ defs.map (·.name)) :
    groupName (named defs name) = name := by
  obtain ⟨d, hd, rfl⟩ := List.mem_map.mp h
  have hmem : d ∈ named defs d.name := mem_named.mpr ⟨hd, rfl⟩
  cases hn : named defs d.name with
  | nil => exact absurd (hn ▸ hmem) List.not_mem_nil
  | cons first rest =>
      have hfirst : first ∈ named defs d.name := hn ▸ List.mem_cons_self
      exact (mem_named.mp hfirst).2

theorem groupName_groups (defs : List Definition) :
    (groups defs).map groupName = (defs.map (·.name)).eraseDups := by
  rw [groups_eq, List.map_map]
  refine (List.map_congr_left fun name hn => ?_).trans (List.map_id _)
  exact groupName_named (List.mem_eraseDups.mp hn)

-- A group is all definitions of its name.
theorem eq_named_of_mem_groups {defs group : List Definition} (h : group ∈ groups defs) :
    group = named defs (groupName group) := by
  rw [groups_eq] at h
  obtain ⟨name, hn, rfl⟩ := List.mem_map.mp h
  rw [groupName_named (List.mem_eraseDups.mp hn)]

-- The definitions of one name, at least one of them.
structure IsGroup (defs group : List Definition) : Prop where
  ne_nil : group ≠ []
  subset : ∀ d ∈ group, d ∈ defs
  name : ∀ d ∈ group, d.name = groupName group

theorem isGroup_of_mem_groups {defs group : List Definition} (h : group ∈ groups defs) :
    IsGroup defs group := by
  rw [groups_eq] at h
  obtain ⟨name, hn, rfl⟩ := List.mem_map.mp h
  have hname := groupName_named (List.mem_eraseDups.mp hn)
  obtain ⟨d, hd, hdname⟩ := List.mem_map.mp (List.mem_eraseDups.mp hn)
  exact ⟨List.ne_nil_of_mem (mem_named.mpr ⟨hd, hdname⟩), fun e he => (mem_named.mp he).1,
    fun e he => (mem_named.mp he).2.trans hname.symm⟩

-- A property of definitions that is one of names picks whole groups.
theorem groups_filter {defs : List Definition} {p : Definition → Bool}
    (h : ∀ d ∈ defs, ∀ e ∈ defs, d.name = e.name → p d = p e) :
    groups (defs.filter p) = (groups defs).filter (·.any p) := by
  have hnames : (defs.filter p).map (·.name) =
      (defs.map (·.name)).filter fun name => (named defs name).any p := by
    rw [List.filter_map]
    refine congrArg (List.map _) (List.filter_congr fun d hd => ?_)
    rw [Bool.eq_iff_iff, Function.comp_apply, List.any_eq_true]
    constructor
    · exact fun hp => ⟨d, mem_named.mpr ⟨hd, rfl⟩, hp⟩
    · rintro ⟨e, he, hp⟩
      obtain ⟨he, hname⟩ := mem_named.mp he
      exact h e he d hd hname ▸ hp
  rw [groups_eq, groups_eq, hnames, eraseDups_filter, List.filter_map]
  refine List.map_congr_left fun name hn => ?_
  obtain ⟨-, hany⟩ := List.mem_filter.mp hn
  obtain ⟨e, hmem, hp⟩ := List.any_eq_true.mp hany
  obtain ⟨he, rfl⟩ := mem_named.mp hmem
  rw [named, List.filter_filter]
  refine List.filter_congr fun d hd => ?_
  by_cases hname : d.name = e.name
  · rw [h d hd e he hname, hp, Bool.and_true]
  · simp [hname]

section

variable {defs group : List Definition} {line : Option Int}

-- What the definitions of one name make of a function. An external one is alone and has no
-- signatures; any other has the signatures of all, in source order, and the kind of each.
structure FunctionOf (group : List Definition) (f : StubFunction) : Prop where
  name : f.name = groupName group
  signatures : f.isExternal = false → group.map (·.signature?) = f.signatures.map some
  kinds : f.isExternal = false → ∀ d ∈ group, kindOf d = f.kind
  external : f.isExternal = true →
    f.signatures = [] ∧ f.kind = .method ∧ ∃ d, group = [d] ∧ d.isExternal = true

theorem map_signature_of_external_nil (h : group.filter Definition.isExternal = []) :
    group.map (·.signature?) = (group.filterMap (·.signature?)).map some := by
  induction group with
  | nil => rfl
  | cons d rest ih =>
      obtain ⟨hd, hrest⟩ := List.forall_mem_cons.mp (List.filter_eq_nil_iff.mp h)
      obtain ⟨signature, hs⟩ : ∃ signature, d.signature? = some signature := by
        simpa [Definition.isExternal, Option.ne_none_iff_exists'] using hd
      rw [List.map_cons, List.filterMap_cons_some hs, List.map_cons, hs,
        ih (List.filter_eq_nil_iff.mpr hrest)]

theorem functionOf_overloads {f : StubFunction} (hx : group.filter Definition.isExternal = [])
    (h : overloads line group = .ok f) : FunctionOf group f := by
  simp only [overloads] at h
  split at h
  · rename_i hkinds
    obtain rfl := (Except.ok.injEq ..).mp h
    refine ⟨rfl, fun _ => map_signature_of_external_nil hx, fun _ d hd => ?_, fun he => ?_⟩
    · simpa using List.all_eq_true.mp hkinds d hd
    · exact absurd he Bool.false_ne_true
  · simp at h

theorem functionOf_function {f : StubFunction} (h : function line group = .ok f) :
    FunctionOf group f := by
  simp only [function] at h
  split at h
  · rename_i hnone
    exact functionOf_overloads (List.length_eq_zero_iff.mp hnone) h
  · rename_i hone
    split at h
    · rename_i halone
      obtain rfl := (Except.ok.injEq ..).mp h
      obtain ⟨d, rfl⟩ := List.length_eq_one_iff.mp halone
      refine ⟨rfl, fun he => absurd he (by simp), fun he => absurd he (by simp), fun _ => ?_⟩
      refine ⟨rfl, rfl, d, rfl, ?_⟩
      by_contra hd
      simp [hd] at hone
    · simp at h
  · simp at h

-- What functions are made of definitions: one for each name, in order of first definition.
structure Functions (defs : List Definition) (functions : List StubFunction) : Prop where
  names : InFirstOrder (functions.map (·.name)) (defs.map (·.name))
  merged : ∀ f ∈ functions, FunctionOf (named defs f.name) f

-- Results that have the names of their groups have the names of the definitions, in first order.
theorem inFirstOrder_groups {α : Type} {nameOf : α → Text} {results : List α}
    (h : List.Forall₂ (fun group result => nameOf result = groupName group) (groups defs) results) :
    InFirstOrder (results.map nameOf) (defs.map (·.name)) := by
  have hnames : results.map nameOf = (groups defs).map groupName := by
    generalize groups defs = found at h
    induction h with
    | nil => rfl
    | cons hname _ ih => rw [List.map_cons, List.map_cons, hname, ih]
  rw [hnames, groupName_groups]
  exact inFirstOrder_eraseDups _

theorem functions_of_groups {functions : List StubFunction}
    (h : List.Forall₂ (fun group f => function line group = .ok f) (groups defs) functions) :
    Functions defs functions := by
  refine ⟨inFirstOrder_groups (h.imp fun _ _ hf => (functionOf_function hf).name), fun f hf => ?_⟩
  obtain ⟨group, hgroup, hmerged⟩ := exists_of_mem_forall₂ h hf
  rw [(functionOf_function hmerged).name, ← eq_named_of_mem_groups hgroup]
  exact functionOf_function hmerged

theorem function_of_moduleFunction {f : StubFunction} (h : moduleFunction group = .ok f) :
    function none group = .ok f := by
  simp only [moduleFunction, bind, Except.bind] at h
  split at h
  · simp at h
  · exact h

theorem moduleFunctions_eq_ok {functions : List StubFunction} :
    moduleFunctions defs = .ok functions ↔
      (groups defs).filter hasProperty = [] ∧
        ((groups defs).filter (!hasProperty ·)).mapM moduleFunction = .ok functions := by
  simp only [moduleFunctions, bind, Except.bind]
  cases ((groups defs).filter (!hasProperty ·)).mapM moduleFunction with
  | error fault => simp
  | ok merged =>
      cases (groups defs).filter hasProperty with
      | nil => simp [Pure.pure, Except.pure]
      | cons group rest => simp [throw, throwThe, MonadExceptOf.throw]

-- The functions of a module merge its definitions.
theorem functions_of_moduleFunctions {functions : List StubFunction}
    (h : moduleFunctions defs = .ok functions) : Functions defs functions := by
  obtain ⟨hnone, hmerged⟩ := moduleFunctions_eq_ok.mp h
  have hall : (groups defs).filter (!hasProperty ·) = groups defs :=
    List.filter_eq_self.mpr fun group hgroup => by
      simpa using List.filter_eq_nil_iff.mp hnone group hgroup
  rw [hall] at hmerged
  exact functions_of_groups ((mapM_except_ok_iff.mp hmerged).imp fun _ _ =>
    function_of_moduleFunction)

end

end TypeStub.Merge
