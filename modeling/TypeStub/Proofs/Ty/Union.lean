import Mathlib.Data.List.Forall2
import TypeStub.Proofs.Merge.FirstOrder
import TypeStub.Ty

namespace TypeStub.Ty

mutual

theorem same_iff : ∀ a b : Ty, same a b = true ↔ a = b
  | named _, b => by cases b <;> simp [same]
  | anything, b => by cases b <;> simp [same]
  | nothing, b => by cases b <;> simp [same]
  | parameter _, b => by cases b <;> simp [same]
  | generic base params, b => by
      cases b <;> simp [same, same_iff base, sameAll_iff params]
  | tuple base params, b => by
      cases b <;> simp [same, same_iff base, sameAll_iff params]
  | callable base args result, b => by
      cases b <;> simp [same, same_iff base, sameAll_iff args, same_iff result, and_assoc]
  | union members, b => by
      cases b <;> simp [same, sameAll_iff members]

theorem sameAll_iff : ∀ as bs : List Ty, sameAll as bs = true ↔ as = bs
  | [], bs => by cases bs <;> simp [sameAll]
  | a :: as, bs => by
      cases bs <;> simp [sameAll, same_iff a, sameAll_iff as]

end

instance : DecidableEq Ty := fun a b => decidable_of_iff _ (same_iff a b)

theorem isNamed_iff {type : Ty} {name : Text} : type.isNamed name = true ↔ type = named name := by
  cases type <;> simp [isNamed]

-- Types are compared as trees.
instance : BEq Ty := ⟨same⟩

instance : LawfulBEq Ty where
  eq_of_beq := (same_iff _ _).mp
  rfl := (same_iff _ _).mpr rfl

private def keepNew (seen : List Ty) (type : Ty) : List Ty :=
  if seen.any (same · type) then seen else seen ++ [type]

private theorem keepNew_eq (seen : List Ty) (type : Ty) :
    keepNew seen type = if seen.contains type = false then seen ++ [type] else seen := by
  have hany : seen.any (same · type) = seen.contains type := by
    rw [Bool.eq_iff_iff, List.any_eq_true, List.contains_iff_mem]
    refine ⟨fun ⟨_, hm, he⟩ => ?_, fun hm => ⟨type, hm, (same_iff _ _).mpr rfl⟩⟩
    rwa [← (same_iff _ _).mp he]
  rw [keepNew, hany]
  cases seen.contains type <;> rfl

-- What has been seen stays in front, and of the types after it the new ones are added, once each.
private theorem foldl_keepNew (types : List Ty) : ∀ seen : List Ty,
    types.foldl keepNew seen = seen ++ (types.removeAll seen).eraseDups := by
  induction types with
  | nil => exact fun seen => (List.append_nil seen).symm
  | cons type rest ih =>
      intro seen
      rw [List.foldl_cons, ih, keepNew_eq, List.cons_removeAll]
      split
      · have hrest : rest.removeAll (seen ++ [type]) =
            (rest.removeAll seen).filter fun other => !other == type := by
          rw [List.removeAll, List.removeAll, List.filter_filter]
          refine List.filter_congr fun other _ => ?_
          rw [Bool.eq_iff_iff]
          simp [and_comm]
        rw [List.eraseDups_cons, hrest, List.append_assoc]
        rfl
      · rfl

theorem distinct_eq (types : List Ty) : distinct types = types.eraseDups := by
  have h := foldl_keepNew types []
  rwa [List.removeAll_nil] at h

-- Types that are all different stay as they are.
theorem distinct_of_nodup {types : List Ty} (h : types.Nodup) : distinct types = types := by
  rw [distinct_eq, eraseDups_of_nodup h]

theorem distinct_nodup (types : List Ty) : (distinct types).Nodup := by
  rw [distinct_eq]
  exact (inFirstOrder_eraseDups types).nodup

theorem mem_distinct {types : List Ty} {x : Ty} : x ∈ distinct types ↔ x ∈ types := by
  rw [distinct_eq, List.mem_eraseDups]

-- A member that a type brings to a union is itself neither a union nor nothing.
def IsLeaf (type : Ty) : Prop := type.kind ≠ .union ∧ type.kind ≠ .nothing

mutual

theorem isLeaf_of_mem_leaves : ∀ (type : Ty) {leaf : Ty}, leaf ∈ leaves type → leaf.IsLeaf
  | union members, _, h => isLeaf_of_mem_leavesAll members (by simpa only [leaves] using h)
  | nothing, _, h => by simp [leaves] at h
  | named _, _, h | anything, _, h | parameter _, _, h | generic _ _, _, h | tuple _ _, _, h
  | callable _ _ _, _, h => by
      simp only [leaves, List.mem_singleton] at h
      subst h
      exact ⟨by simp [kind], by simp [kind]⟩

theorem isLeaf_of_mem_leavesAll : ∀ (types : List Ty) {leaf : Ty},
    leaf ∈ leavesAll types → leaf.IsLeaf
  | [], _, h => by simp [leavesAll] at h
  | type :: rest, _, h => by
      simp only [leavesAll, List.mem_append] at h
      exact h.elim (isLeaf_of_mem_leaves type) (isLeaf_of_mem_leavesAll rest)

end

-- Leaves are the members that they bring.
theorem leavesAll_of_isLeaf {types : List Ty} (h : ∀ t ∈ types, t.IsLeaf) :
    leavesAll types = types := by
  induction types with
  | nil => rfl
  | cons t rest ih =>
      have ht := h t (by simp)
      have hleaf : leaves t = [t] := by
        cases t <;> first | rfl | exact absurd rfl ht.1 | exact absurd rfl ht.2
      rw [leavesAll, hleaf, ih fun x hx => h x (by simp [hx])]
      rfl

-- A union of several types is nothing, one leaf of theirs, or at least two different ones.
theorem unionOf_cases (types : List Ty) :
    unionOf types = nothing ∨ (∃ leaf ∈ leavesAll types, unionOf types = leaf) ∨
      ∃ members, unionOf types = union members ∧ 2 ≤ members.length ∧ members.Nodup ∧
        ∀ member ∈ members, member ∈ leavesAll types := by
  have hmem : ∀ x, x ∈ distinct (leavesAll types) → x ∈ leavesAll types :=
    fun x => mem_distinct.mp
  have hn := distinct_nodup (leavesAll types)
  unfold unionOf
  split
  · exact .inl rfl
  · rename_i single hd
    exact .inr (.inl ⟨single, hmem single (by simp [hd]), rfl⟩)
  · rename_i members hnil hsingle
    refine .inr (.inr ⟨_, rfl, ?_, hn, hmem⟩)
    match hd : distinct (leavesAll types) with
    | [] => exact absurd hd hnil
    | [single] => exact absurd hd (hsingle single)
    | a :: b :: rest => simp

-- Unions do not depend on how their members are grouped.
mutual

-- A type, or in place of a union what its members are when the unions among them are opened as well.
def flattened : Ty → List Ty
  | union members => flattenedAll members
  | type => [type]

def flattenedAll : List Ty → List Ty
  | [] => []
  | type :: rest => flattened type ++ flattenedAll rest

end

mutual

theorem leaves_eq_flattened : ∀ type : Ty,
    leaves type = (flattened type).filter (·.kind != .nothing)
  | union members => leavesAll_eq_flattened members
  | nothing | named _ | anything | parameter _ | generic _ _ | tuple _ _ | callable _ _ _ => rfl

theorem leavesAll_eq_flattened : ∀ types : List Ty,
    leavesAll types = (flattenedAll types).filter (·.kind != .nothing)
  | [] => rfl
  | type :: rest => by
      rw [leavesAll, flattenedAll, List.filter_append, leaves_eq_flattened type,
        leavesAll_eq_flattened rest]

end

theorem leavesAll_append (types more : List Ty) :
    leavesAll (types ++ more) = leavesAll types ++ leavesAll more := by
  induction types with
  | nil => rfl
  | cons type rest ih => rw [List.cons_append, leavesAll, ih, leavesAll, List.append_assoc]

theorem leaves_of_isLeaf {type : Ty} (h : type.IsLeaf) : leaves type = [type] := by
  have hall : leavesAll [type] = [type] := leavesAll_of_isLeaf (by simpa using h)
  rwa [leavesAll, leavesAll, List.append_nil] at hall

-- A union brings to another one what it is made of: nothing has no leaf, a single member is its own
-- one, and several members are leaves already.
theorem leaves_unionOf (types : List Ty) : leaves (unionOf types) = distinct (leavesAll types) := by
  have hleaf : ∀ leaf ∈ distinct (leavesAll types), leaf.IsLeaf := fun leaf hm =>
    isLeaf_of_mem_leavesAll types (mem_distinct.mp hm)
  unfold unionOf
  split
  · rename_i hnone
    rw [hnone, leaves]
  · rename_i single hsingle
    rw [hsingle] at hleaf ⊢
    exact leaves_of_isLeaf (hleaf single (by simp))
  · rw [leaves]
    exact leavesAll_of_isLeaf hleaf

theorem unionOf_congr {types others : List Ty}
    (h : distinct (leavesAll types) = distinct (leavesAll others)) :
    unionOf types = unionOf others := by
  rw [unionOf, unionOf, h]

-- A union among the members may give way to its own members.
theorem unionOf_grouped (before types after : List Ty) :
    unionOf (before ++ [unionOf types] ++ after) = unionOf (before ++ types ++ after) := by
  have hone : leavesAll [unionOf types] = (leavesAll types).eraseDups := by
    rw [leavesAll, leavesAll, List.append_nil, leaves_unionOf, distinct_eq]
  refine unionOf_congr ?_
  rw [distinct_eq, distinct_eq, leavesAll_append, leavesAll_append, leavesAll_append,
    leavesAll_append, hone, eraseDups_append_part]

-- The union of types is made of what they flatten to, without nothing and each type once, in the
-- order in which they are first met.
theorem unionOf_normalizes (types : List Ty) :
    (∃ members, InFirstOrder members ((flattenedAll types).filter (·.kind != .nothing)) ∧
      unionOf types = match members with
        | [] => nothing
        | [single] => single
        | several => union several) ∧
    (∀ members, unionOf types = union members →
      2 ≤ members.length ∧ (∀ member ∈ members, member.kind ≠ .union ∧ member.kind ≠ .nothing) ∧
        members.Pairwise fun a b => same a b = false) ∧
    ∀ before after,
      unionOf (before ++ [unionOf types] ++ after) = unionOf (before ++ types ++ after) := by
  refine ⟨⟨distinct (leavesAll types), ?_, rfl⟩, fun members h => ?_, fun before after =>
    unionOf_grouped before types after⟩
  · rw [distinct_eq, ← leavesAll_eq_flattened]
    exact inFirstOrder_eraseDups _
  · rcases unionOf_cases types with he | ⟨leaf, hm, he⟩ | ⟨found, he, hlength, hnodup, hm⟩
    · rw [he] at h
      exact absurd h (by simp)
    · rw [he] at h
      exact absurd (h ▸ rfl : leaf.kind = .union) (isLeaf_of_mem_leavesAll types hm).1
    · obtain rfl := union.inj (he.symm.trans h)
      refine ⟨hlength, fun member hin => isLeaf_of_mem_leavesAll types (hm member hin), ?_⟩
      exact hnodup.imp fun hne => Bool.eq_false_iff.mpr fun hs => hne ((same_iff _ _).mp hs)

example : unionOf [named "int", union [nothing, named "str", union [named "int"]]] =
    union [named "int", named "str"] := rfl

-- Two types of one kind and with the same names, whose parts are related one by one, in order.
def Agree (R : Ty → Ty → Prop) : Ty → Ty → Prop
  | named a, named b => a = b
  | anything, anything => True
  | nothing, nothing => True
  | parameter a, parameter b => a = b
  | generic a as, generic b bs => R a b ∧ List.Forall₂ R as bs
  | tuple a as, tuple b bs => R a b ∧ List.Forall₂ R as bs
  | callable a as r, callable b bs s => R a b ∧ List.Forall₂ R as bs ∧ R r s
  | union as, union bs => List.Forall₂ R as bs
  | _, _ => False

-- A tree is made of its kind, its names and its parts.
theorem agree_eq_iff (a b : Ty) : Agree (· = ·) a b ↔ a = b := by
  cases a with
  | named | anything | nothing | parameter => cases b <;> simp [Agree]
  | generic | tuple | callable | union => cases b <;> simp [Agree, List.forall₂_eq_eq_eq]

theorem same_eq : (fun a b => same a b = true) = ((· = ·) : Ty → Ty → Prop) := by
  funext a b
  exact propext (same_iff a b)

-- Comparing types decides whether they are the same tree, however deep. So it is an equivalence,
-- types agree in their parts if and only if they are the same, and a union keeps each of its members
-- once.
theorem same_decides :
    (∀ a b : Ty, same a b = true ↔ a = b) ∧
    Equivalence (fun a b => same a b = true) ∧
    (∀ a b : Ty, Agree (fun a b => same a b = true) a b ↔ same a b = true) ∧
    ∀ types : List Ty, ((distinct types).Pairwise fun a b => same a b = false) ∧
      ∀ type, type ∈ distinct types ↔ type ∈ types := by
  refine ⟨same_iff, ?_, fun a b => ?_, fun types => ⟨?_, fun type => mem_distinct⟩⟩
  · rw [same_eq]
    exact eq_equivalence
  · rw [same_eq, same_iff]
    exact agree_eq_iff a b
  · exact (distinct_nodup types).imp fun hne =>
      Bool.eq_false_iff.mpr fun hs => hne ((same_iff _ _).mp hs)

example : same (callable (named "typing.Callable") [union [named "int", nothing]] anything)
    (callable (named "typing.Callable") [union [nothing, named "int"]] anything) = false := rfl

end TypeStub.Ty
