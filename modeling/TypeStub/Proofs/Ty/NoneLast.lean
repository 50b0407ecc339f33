import Mathlib.Data.List.Perm.Basic
import TypeStub.Proofs.Ty.Canonical

namespace TypeStub.Ty

def isNone (t : Ty) : Bool := t.isNamed "NoneType"

theorem isNone_iff {t : Ty} : t.isNone = true ↔ t = named "NoneType" := isNamed_iff

mutual

-- The type with None as the last member of each union.
def noneLast : Ty → Ty
  | generic base params => generic base (noneLastAll params)
  | tuple base params => tuple base (noneLastAll params)
  | callable base args result => callable base (noneLastAll args) result.noneLast
  | union members =>
      let members := noneLastAll members
      union (members.filter (!·.isNone) ++ members.filter (·.isNone))
  | t => t

def noneLastAll : List Ty → List Ty
  | [] => []
  | t :: rest => t.noneLast :: noneLastAll rest

end

theorem noneLastAll_eq (ts : List Ty) : noneLastAll ts = ts.map noneLast := by
  induction ts with
  | nil => rfl
  | cons t rest ih => rw [noneLastAll, ih, List.map_cons]

theorem kind_noneLast (t : Ty) : t.noneLast.kind = t.kind := by cases t <;> rfl

theorem noneLast_atom {t : Ty} (h : t.IsAtom) : t.noneLast = t := by
  cases t <;> first | rfl | exact h.elim

theorem isNamed_noneLast (t : Ty) (name : Text) : t.noneLast.isNamed name = t.isNamed name := by
  cases t <;> rfl

theorem isNone_noneLast (t : Ty) : t.noneLast.isNone = t.isNone := isNamed_noneLast t _

-- The members of a union other than None.
def others (members : List Ty) : List Ty := (members.filter (!·.isNone)).map noneLast

theorem map_noneLast_nones (members : List Ty) :
    (members.filter (·.isNone)).map noneLast = members.filter (·.isNone) := by
  refine (List.map_congr_left fun t ht => ?_).trans (List.map_id _)
  rw [isNone_iff.mp (List.mem_filter.mp ht).2]
  rfl

theorem noneLast_union (members : List Ty) :
    (union members).noneLast = union (others members ++ members.filter (·.isNone)) := by
  rw [noneLast, noneLastAll_eq, List.filter_map, List.filter_map, others, ← map_noneLast_nones]
  simp only [Function.comp_def, isNone_noneLast]

theorem perm_others (members : List Ty) :
    (others members ++ members.filter (·.isNone)).Perm (noneLastAll members) := by
  rw [noneLastAll_eq, others, ← map_noneLast_nones, ← List.map_append]
  exact (List.perm_append_comm.trans (List.filter_append_perm ..)).map _

-- None is a member of a union once or not at all.
theorem filter_isNone {members : List Ty} (h : members.Nodup) :
    members.filter (·.isNone) = if members.any isNone then [named "NoneType"] else [] := by
  split
  · rename_i hany
    obtain ⟨t, ht, hnone⟩ := List.any_eq_true.mp hany
    have hall : members.filter (·.isNone) =
        List.replicate (members.filter (·.isNone)).length (named "NoneType") :=
      List.eq_replicate_of_mem fun t ht => isNone_iff.mp (List.mem_filter.mp ht).2
    have hnodup : (members.filter (·.isNone)).Nodup := h.filter _
    rw [hall, List.nodup_replicate] at hnodup
    have hpos : 0 < (members.filter (·.isNone)).length :=
      List.length_pos_of_mem (List.mem_filter.mpr ⟨ht, hnone⟩)
    rw [hall, Nat.le_antisymm hnodup hpos]
    rfl
  · rename_i hany
    rw [List.filter_eq_nil_iff]
    simpa using hany

theorem Canonical.nodup {members : List Ty} (h : (union members).Canonical) : members.Nodup :=
  h.normal.2.2.imp fun hs he => by
    rw [(same_iff _ _).mpr he] at hs
    simp at hs

theorem Canonical.isLeaf {members : List Ty} (h : (union members).Canonical) :
    ∀ member ∈ members, member.IsLeaf := h.normal.2.1

-- The parts of a union's normal form are different leaves, at least two.
theorem others_facts {members : List Ty} (hc : (union members).Canonical)
    (hn : (noneLastAll members).Nodup) :
    (others members ++ members.filter (·.isNone)).Nodup ∧
      (∀ t ∈ others members ++ members.filter (·.isNone), t.IsLeaf) ∧
      2 ≤ (others members ++ members.filter (·.isNone)).length := by
  have hperm := perm_others members
  refine ⟨hperm.nodup_iff.mpr hn, fun t ht => ?_, ?_⟩
  · obtain ⟨member, hm, rfl⟩ := List.mem_map.mp (noneLastAll_eq members ▸ hperm.mem_iff.mp ht)
    have hleaf := hc.isLeaf member hm
    unfold IsLeaf
    rwa [kind_noneLast]
  · rw [hperm.length_eq, noneLastAll_eq, List.length_map]
    exact hc.normal.1

-- Different leaves are the members of their union as they stand.
theorem unionOf_leaves {types members : List Ty} (h : leavesAll types = members) (hn : members.Nodup)
    (hl : 2 ≤ members.length) : unionOf types = union members := by
  unfold unionOf
  rw [h, distinct_of_nodup hn]
  rcases members with _ | ⟨first, _ | ⟨second, rest⟩⟩
  · simp at hl
  · simp at hl
  · rfl

end TypeStub.Ty
