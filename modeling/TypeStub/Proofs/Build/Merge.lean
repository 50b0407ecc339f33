import TypeStub.Proofs.Build.Signature
import TypeStub.Proofs.Merge.Members

namespace TypeStub.Merge

section

variable {P : Ty → Prop} {defs group : List Definition} {line : Option Int}

theorem IsGroup.identifier (hg : IsGroup defs group) (hd : ∀ d ∈ defs, d.Shaped P) :
    Identifier (groupName group) := by
  obtain ⟨d, hm⟩ := List.exists_mem_of_ne_nil group hg.ne_nil
  exact hg.name d hm ▸ (hd d (hg.subset d hm)).name

theorem kindOf_allocator {d : Definition} (h : d.name = "__new__") :
    kindOf d = .staticMethod := by
  rw [kindOf, if_pos h]

theorem FunctionOf.mem_signatures {f : StubFunction} (h : FunctionOf group f) {s : Signature}
    (hs : s ∈ f.signatures) : ∃ d ∈ group, d.signature? = some s := by
  cases hx : f.isExternal with
  | true => simp [(h.external hx).1] at hs
  | false =>
      have hm : some s ∈ group.map (·.signature?) :=
        h.signatures hx ▸ List.mem_map_of_mem hs
      simpa using hm

theorem FunctionOf.shaped {f : StubFunction} (h : FunctionOf group f) (hg : IsGroup defs group)
    (hd : ∀ d ∈ defs, d.Shaped P) : f.Shaped ∧ ∀ type ∈ f.types, P type := by
  have hs : ∀ s ∈ f.signatures, s.Shaped ∧ ∀ type ∈ s.types, P type := by
    intro s hm
    obtain ⟨d, hin, hs⟩ := h.mem_signatures hm
    exact (hd d (hg.subset d hin)).signature s hs
  obtain ⟨d, hm⟩ := List.exists_mem_of_ne_nil group hg.ne_nil
  refine ⟨⟨h.name ▸ hg.identifier hd, fun hx => ?_, fun hx hnil => ?_, fun hx hn => ?_,
    fun s hm => (hs s hm).1⟩, fun type ht => ?_⟩
  · exact ⟨(h.external hx).1, (h.external hx).2.1⟩
  · have hgroup := h.signatures hx
    rw [hnil, List.map_nil, List.map_eq_nil_iff] at hgroup
    exact hg.ne_nil hgroup
  · rw [← h.kinds hx d hm]
    exact kindOf_allocator ((hg.name d hm).trans (h.name.symm.trans hn))
  · obtain ⟨s, hm, ht⟩ := List.mem_flatMap.mp ht
    exact (hs s hm).2 type ht

-- What an accessor tells is one of the types in its signature.
theorem told?_mem {d : Definition} {type : Ty} (h : told? d = some type) :
    ∃ s ∈ d.signature?, type ∈ s.types := by
  obtain ⟨s, hs, h⟩ := Option.bind_eq_some_iff.mp h
  refine ⟨s, hs, ?_⟩
  split at h
  · obtain rfl := Option.some.inj h
    simp [Signature.types]
  · obtain ⟨p, hp, rfl⟩ := Option.map_eq_some_iff.mp h
    simp only [Signature.types, List.append_assoc, List.mem_append]
    exact .inl (List.mem_map_of_mem (List.mem_of_getElem? hp))
  · simp at h

theorem lastTold_mem (group : List Definition) :
    lastTold group = .anything ∨ ∃ d ∈ group, told? d = some (lastTold group) := by
  unfold lastTold
  cases hl : ((group.filterMap told?).filter isInformative).getLast? with
  | none => exact .inl rfl
  | some type =>
      have hm := (List.mem_filter.mp (List.mem_of_getLast? hl)).1
      exact .inr (List.mem_filterMap.mp hm)

theorem kept_lastTold (hg : IsGroup defs group) (hd : ∀ d ∈ defs, d.Shaped P)
    (ha : P .anything) : P (lastTold group) := by
  rcases lastTold_mem group with he | ⟨d, hm, ht⟩
  · exact he ▸ ha
  · obtain ⟨s, hs, ht⟩ := told?_mem ht
    exact ((hd d (hg.subset d hm)).signature s hs).2 _ ht

-- A member of a class, and a method or a property under the name of its definitions.
def Member.Shaped (P : Ty → Prop) : Member → Prop
  | .method f => f.Shaped ∧ ∀ type ∈ f.types, P type
  | .property c => Identifier c.name ∧ P c.type

theorem shaped_member (hg : IsGroup defs group) (hd : ∀ d ∈ defs, d.Shaped P)
    (ha : P .anything) {m : Member} (h : MemberOf line group m) : m.Shaped P := by
  cases h with
  | method _ hf => exact (functionOf_function hf).shaped hg hd
  | property _ _ hc =>
      obtain ⟨hname, htype⟩ := property_ok hc
      exact ⟨hname ▸ hg.identifier hd, htype ▸ kept_lastTold hg hd ha⟩

theorem shaped_classMembers (hd : ∀ d ∈ defs, d.Shaped P) (ha : P .anything)
    {members : List Member} (h : classMembers line defs = .ok members) :
    ∀ m ∈ members, m.Shaped P := by
  intro m hm
  obtain ⟨group, hin, hmember⟩ := exists_of_mem_forall₂ (memberOf_classMembers h) hm
  exact shaped_member (isGroup_of_mem_groups hin) hd ha hmember

theorem shaped_moduleFunctions (hd : ∀ d ∈ defs, d.Shaped P) {functions : List StubFunction}
    (h : moduleFunctions defs = .ok functions) :
    ∀ f ∈ functions, f.Shaped ∧ ∀ type ∈ f.types, P type := by
  intro f hm
  obtain ⟨group, hin, hf⟩ := exists_of_mem_mapM (moduleFunctions_eq_ok.mp h).2 hm
  exact (functionOf_function (function_of_moduleFunction hf)).shaped
    (isGroup_of_mem_groups (List.mem_filter.mp hin).1) hd

end

end TypeStub.Merge
