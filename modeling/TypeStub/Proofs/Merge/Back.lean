import TypeStub.Proofs.Build.Back
import TypeStub.Proofs.Merge.Functions

-- Functions are merged again from the definitions that they are written as.
namespace TypeStub.Merge

open Build Print

theorem kindOf_written {name : Text} {kind : FunctionKind} (signature? : Option Signature)
    (h : name = "__new__" → kind = .staticMethod) :
    kindOf ⟨name, writtenDecorator name kind, signature?⟩ = kind := by
  by_cases hname : name = "__new__"
  · rw [kindOf, if_pos hname, h hname]
  · rw [kindOf, if_neg hname]
    cases kind with
    | staticMethod => rw [writtenDecorator, decoratorTexts, if_neg hname]; rfl
    | _ => rfl

theorem role_written (name : Text) (kind : FunctionKind) :
    (writtenDecorator name kind).role ≠ .unrecognized ∧
      (writtenDecorator name kind).isProperty = false := by
  unfold writtenDecorator
  rcases decoratorTexts_cases name kind with h | h | h <;> rw [h] <;>
    exact ⟨by decide, by decide⟩

section

variable {f : StubFunction}

theorem name_of_mem_definitionsOf : ∀ d ∈ definitionsOf f, d.name = f.name := by
  unfold definitionsOf
  split <;> simp

theorem role_of_mem_definitionsOf : ∀ d ∈ definitionsOf f,
    d.decorator.role ≠ .unrecognized ∧ d.decorator.isProperty = false := by
  unfold definitionsOf
  split
  · simp [Decorator.none, Decorator.isProperty]
  · simp only [List.forall_mem_map]
    exact fun _ _ => role_written f.name f.kind

theorem hasProperty_definitionsOf : hasProperty (definitionsOf f) = false := by
  rw [hasProperty, List.any_eq_false]
  exact fun d hd => Bool.eq_false_iff.mp (role_of_mem_definitionsOf d hd).2

theorem checkRecognized_definitionsOf (line : Option Int) :
    checkRecognized line (definitionsOf f) = .ok () := by
  have hnone : (definitionsOf f).find? (·.decorator.role == .unrecognized) = none := by
    rw [List.find?_eq_none]
    exact fun d hd => by simpa using (role_of_mem_definitionsOf d hd).1
  rw [checkRecognized, hnone]

variable (h : f.Shaped)

include h

theorem definitionsOf_ne_nil : definitionsOf f ≠ [] := by
  unfold definitionsOf
  split
  · simp
  · rename_i hexternal
    simpa using h.overloads (Bool.eq_false_iff.mpr hexternal)

theorem groupName_definitionsOf : groupName (definitionsOf f) = f.name := by
  obtain ⟨first, rest, hcons⟩ := List.exists_cons_of_ne_nil (definitionsOf_ne_nil h)
  rw [hcons]
  exact name_of_mem_definitionsOf first (by simp [hcons])

theorem overloads_definitionsOf (line : Option Int) (hf : f.isExternal = false) :
    overloads line (definitionsOf f) = .ok f := by
  have hkind : ∀ d ∈ definitionsOf f, kindOf d = f.kind := by
    rw [definitionsOf, if_neg (Bool.eq_false_iff.mp hf), List.forall_mem_map]
    exact fun s _ => kindOf_written _ (h.allocator hf)
  have hgroup : groupKind (definitionsOf f) = f.kind := by
    obtain ⟨first, rest, hcons⟩ := List.exists_cons_of_ne_nil (definitionsOf_ne_nil h)
    rw [hcons]
    exact hkind first (by simp [hcons])
  have hsignatures : (definitionsOf f).filterMap (·.signature?) = f.signatures := by
    simp [definitionsOf, hf]
  unfold overloads
  dsimp only
  rw [groupName_definitionsOf h, hgroup, if_pos (List.all_eq_true.mpr fun d hd =>
    beq_iff_eq.mpr (hkind d hd)), hsignatures, ← hf]

theorem function_definitionsOf (line : Option Int) : function line (definitionsOf f) = .ok f := by
  unfold function
  cases hf : f.isExternal with
  | false =>
      have hinternal : (definitionsOf f).filter Definition.isExternal = [] := by
        rw [definitionsOf, if_neg (Bool.eq_false_iff.mp hf), List.filter_eq_nil_iff,
          List.forall_mem_map]
        exact fun _ _ => by simp [Definition.isExternal]
      rw [hinternal]
      exact overloads_definitionsOf h line hf
  | true =>
      obtain ⟨hs, hk⟩ := h.native hf
      have hback : f = ⟨f.name, [], .method, true⟩ := by rw [← hs, ← hk, ← hf]
      rw [definitionsOf, if_pos hf]
      exact congrArg Except.ok hback.symm

theorem moduleFunction_definitionsOf : moduleFunction (definitionsOf f) = .ok f := by
  rw [moduleFunction, checkRecognized_definitionsOf]
  exact function_definitionsOf h none

theorem member_definitionsOf (line : Option Int) :
    member line (definitionsOf f) = .ok (.method f) := by
  have hfunction := function_definitionsOf h line
  rw [member, checkRecognized_definitionsOf, hasProperty_definitionsOf]
  simp only [Bind.bind, Except.bind, hfunction]
  rfl

end

-- Functions with different names.
section

variable {fs : List StubFunction} (h : ∀ f ∈ fs, f.Shaped) (hn : (fs.map (·.name)).Nodup)

theorem name_of_mem_flatMap {d : Definition} (hd : d ∈ fs.flatMap definitionsOf) :
    d.name ∈ fs.map (·.name) := by
  obtain ⟨f, hf, hd⟩ := List.mem_flatMap.mp hd
  rw [name_of_mem_definitionsOf d hd]
  exact List.mem_map_of_mem hf

include h in
theorem eraseDups_names (hn : (fs.map (·.name)).Nodup) :
    ((fs.flatMap definitionsOf).map (·.name)).eraseDups = fs.map (·.name) := by
  induction fs with
  | nil => rfl
  | cons f rest ih =>
      rw [List.map_cons, List.nodup_cons] at hn
      obtain ⟨hfirst, hrest⟩ := hn
      have hblock : ((definitionsOf f).map (·.name)).eraseDups = [f.name] := by
        refine eraseDups_same ?_ fun name hm => ?_
        · simpa using definitionsOf_ne_nil (h f (by simp))
        · obtain ⟨d, hd, rfl⟩ := List.mem_map.mp hm
          exact name_of_mem_definitionsOf d hd
      have hother : ((rest.flatMap definitionsOf).map (·.name)).removeAll
          ((definitionsOf f).map (·.name)) = (rest.flatMap definitionsOf).map (·.name) := by
        refine List.filter_eq_self.mpr fun name hm => ?_
        obtain ⟨d, hd, rfl⟩ := List.mem_map.mp hm
        simp only [Bool.not_eq_true', List.elem_eq_mem, decide_eq_false_iff_not, List.mem_map]
        rintro ⟨e, he, hname⟩
        rw [name_of_mem_definitionsOf e he] at hname
        exact hfirst (hname ▸ name_of_mem_flatMap hd)
      rw [List.flatMap_cons, List.map_append, List.eraseDups_append, hblock, hother,
        ih (fun g hg => h g (by simp [hg])) hrest]
      rfl

theorem named_definitions {f : StubFunction} (hf : f ∈ fs) (hn : (fs.map (·.name)).Nodup) :
    named (fs.flatMap definitionsOf) f.name = definitionsOf f := by
  have hsame : ∀ g : StubFunction, g.name = f.name →
      named (definitionsOf g) f.name = definitionsOf g := fun g hg =>
    List.filter_eq_self.mpr fun d hd => by simp [name_of_mem_definitionsOf d hd, hg]
  induction fs with
  | nil => cases hf
  | cons g rest ih =>
      rw [List.map_cons, List.nodup_cons] at hn
      obtain ⟨hfirst, hrest⟩ := hn
      rw [List.flatMap_cons, named, List.filter_append]
      rcases List.mem_cons.mp hf with rfl | hf
      · have hnone : (rest.flatMap definitionsOf).filter (·.name == f.name) = [] := by
          refine List.filter_eq_nil_iff.mpr fun d hd hname => hfirst ?_
          rw [← beq_iff_eq.mp hname]
          exact name_of_mem_flatMap hd
        rw [hnone, List.append_nil]
        exact hsame f rfl
      · have hnone : (definitionsOf g).filter (·.name == f.name) = [] := by
          refine List.filter_eq_nil_iff.mpr fun d hd hname => hfirst ?_
          rw [← name_of_mem_definitionsOf d hd, beq_iff_eq.mp hname]
          exact List.mem_map_of_mem hf
        rw [hnone, List.nil_append]
        exact ih hf hrest

include h hn

-- Each group is the definitions of one function.
theorem groups_definitions : groups (fs.flatMap definitionsOf) = fs.map definitionsOf := by
  rw [groups_eq, eraseDups_names h hn, List.map_map]
  exact List.map_congr_left fun f hf => named_definitions hf hn

theorem moduleFunctions_definitions : moduleFunctions (fs.flatMap definitionsOf) = .ok fs := by
  rw [moduleFunctions_eq_ok, groups_definitions h hn]
  have hnone : ∀ group ∈ fs.map definitionsOf, hasProperty group = false := by
    rw [List.forall_mem_map]
    exact fun f _ => hasProperty_definitionsOf
  refine ⟨List.filter_eq_nil_iff.mpr fun group hg => by simp [hnone group hg], ?_⟩
  rw [List.filter_eq_self.mpr fun group hg => by simp [hnone group hg], mapM_except_ok_iff,
    List.forall₂_map_left_iff, List.forall₂_same]
  exact fun f hf => moduleFunction_definitionsOf (h f hf)

theorem classMembers_definitions (line : Option Int) :
    classMembers line (fs.flatMap definitionsOf) = .ok (fs.map Member.method) := by
  rw [classMembers, groups_definitions h hn, mapM_except_ok_iff, List.forall₂_map_left_iff,
    List.forall₂_map_right_iff, List.forall₂_same]
  exact fun f hf => member_definitionsOf (h f hf) line

end

end TypeStub.Merge
