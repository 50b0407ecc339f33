import TypeStub.Table
import TypeStub.Text

-- Names in order without repeats, and the tables under them.
namespace TypeStub

theorem mem_insertSorted {name other : Text} {names : List Text} :
    other ∈ insertSorted name names ↔ other = name ∨ other ∈ names := by
  induction names with
  | nil => simp [insertSorted]
  | cons head rest ih =>
      rw [insertSorted]
      split
      · simp
      · split
        · rename_i he
          simp [he]
        · rw [List.mem_cons, ih, List.mem_cons]
          exact or_left_comm

theorem mem_sortedNames {name : Text} {names : List Text} :
    name ∈ sortedNames names ↔ name ∈ names := by
  induction names with
  | nil => simp [sortedNames]
  | cons head rest ih =>
      rw [sortedNames, List.foldr_cons, mem_insertSorted, List.mem_cons]
      exact or_congr_right ih

-- The order is total, so that a name is before the head, or it is the head, or it goes on.
theorem pairwise_insertSorted {name : Text} {names : List Text} (h : names.Pairwise (· < ·)) :
    (insertSorted name names).Pairwise (· < ·) := by
  induction names with
  | nil => simp [insertSorted]
  | cons head rest ih =>
      rw [List.pairwise_cons] at h
      obtain ⟨hhead, hrest⟩ := h
      rw [insertSorted]
      split
      · rename_i hlt
        refine List.pairwise_cons.mpr ⟨fun other ho => ?_, List.pairwise_cons.mpr ⟨hhead, hrest⟩⟩
        rcases List.mem_cons.mp ho with rfl | ho
        · exact hlt
        · exact List.lt_trans hlt (hhead other ho)
      · rename_i hnlt
        split
        · exact List.pairwise_cons.mpr ⟨hhead, hrest⟩
        · rename_i hne
          refine List.pairwise_cons.mpr ⟨fun other ho => ?_, ih hrest⟩
          rcases mem_insertSorted.mp ho with rfl | ho
          · by_cases hlt : head < other
            · exact hlt
            · exact absurd (List.le_antisymm hlt hnlt) hne
          · exact hhead other ho

theorem pairwise_sortedNames (names : List Text) : (sortedNames names).Pairwise (· < ·) := by
  induction names with
  | nil => exact .nil
  | cons head rest ih => exact pairwise_insertSorted ih

namespace Table

variable {α : Type} {name key other : Text} {f : Option α → α} {table : Table α}

def names (table : Table α) : List Text := table.map Prod.fst

-- The names are in order, so none of them is there twice.
def Ordered (table : Table α) : Prop := table.names.Pairwise (· < ·)

theorem names_update : (table.update name f).names = insertSorted name table.names := by
  induction table with
  | nil => rfl
  | cons entry rest ih =>
      obtain ⟨key, value⟩ := entry
      simp only [update, names, List.map_cons, insertSorted] at ih ⊢
      split
      · rfl
      · split
        · rfl
        · rw [List.map_cons, ih]

theorem Ordered.nil : Ordered ([] : Table α) := List.Pairwise.nil

theorem Ordered.update (h : Ordered table) (name : Text) (f : Option α → α) :
    Ordered (table.update name f) := by
  rw [Ordered, names_update]
  exact pairwise_insertSorted h

theorem Ordered.nodup (h : Ordered table) : table.names.Nodup := by
  refine List.Pairwise.imp ?_ h
  rintro name _ hlt rfl
  exact List.lt_irrefl _ hlt

@[simp] theorem get?_cons_self (value : α) : get? name ((name, value) :: table) = some value :=
  List.lookup_cons_self

theorem get?_cons_of_ne (h : name ≠ key) (value : α) :
    get? name ((key, value) :: table) = table.get? name := by
  rw [get?, List.lookup_cons, beq_false_of_ne h]
  rfl

theorem isSome_get?_iff : (table.get? name).isSome ↔ name ∈ table.names := by
  induction table with
  | nil => simp [get?, names]
  | cons entry rest ih =>
      obtain ⟨key, value⟩ := entry
      rw [names, List.map_cons, List.mem_cons]
      by_cases h : name = key
      · subst h
        simp
      · rw [get?_cons_of_ne h, ih]
        simp [h, names]

theorem Ordered.get?_eq_some_iff (h : Ordered table) {value : α} :
    table.get? name = some value ↔ (name, value) ∈ table := by
  induction table with
  | nil => simp [get?]
  | cons entry rest ih =>
      obtain ⟨key, first⟩ := entry
      have hcons := List.pairwise_cons.mp h
      rw [List.mem_cons, Prod.mk.injEq]
      by_cases hkey : name = key
      · subst hkey
        have hrest : (name, value) ∉ rest := fun hmem =>
          List.lt_irrefl _ (hcons.1 name (List.mem_map_of_mem hmem))
        simp [hrest, eq_comm]
      · rw [get?_cons_of_ne hkey, ih hcons.2]
        simp [hkey]

-- A name before the first one is not in the table, so that its value is made from nothing.
theorem Ordered.get?_update (h : Ordered table) :
    (table.update name f).get? name = some (f (table.get? name)) := by
  induction table with
  | nil => exact get?_cons_self _
  | cons entry rest ih =>
      obtain ⟨key, value⟩ := entry
      have hcons := List.pairwise_cons.mp h
      rw [Table.update]
      split
      · rename_i hlt
        have hnot : ¬ (Table.get? name ((key, value) :: rest)).isSome := by
          rw [isSome_get?_iff]
          intro hmem
          rcases List.mem_cons.mp hmem with rfl | hmem
          · exact List.lt_irrefl _ hlt
          · exact List.lt_irrefl _ (List.lt_trans hlt (hcons.1 name hmem))
        rw [Option.not_isSome_iff_eq_none.mp hnot, get?_cons_self]
      · split
        · rename_i heq
          subst heq
          rw [get?_cons_self, get?_cons_self]
        · rename_i hne
          rw [get?_cons_of_ne hne, get?_cons_of_ne hne, ih hcons.2]

theorem get?_update_of_ne (h : other ≠ name) :
    (table.update name f).get? other = table.get? other := by
  induction table with
  | nil => exact get?_cons_of_ne h _
  | cons entry rest ih =>
      obtain ⟨key, value⟩ := entry
      rw [update]
      split
      · exact get?_cons_of_ne h _
      · split
        · rename_i heq
          subst heq
          rw [get?_cons_of_ne h, get?_cons_of_ne h]
        · by_cases hkey : other = key
          · subst hkey
            rw [get?_cons_self, get?_cons_self]
          · rw [get?_cons_of_ne hkey, get?_cons_of_ne hkey, ih]

end Table

end TypeStub
