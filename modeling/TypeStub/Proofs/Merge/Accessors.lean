import TypeStub.Proofs.Build.Parameters
import TypeStub.Proofs.Merge.Members

-- Which definitions a property is made of, and what becomes of a group with another one in it.
namespace TypeStub

-- How many parameters an accessor takes: the object, and a setter a value too.
def Decorator.arity? (decorator : Decorator) : Option Nat :=
  match decorator.role with
  | .property | .deleter _ => some 1
  | .setter _ => some 2
  | _ => Option.none

-- A definition as it is written that an accessor of this kind may have. Of its parameters, those
-- before a star that are ordinary count.
def Def.FitsAccessor (d : Def) (decorator : Decorator) : Prop :=
  ∃ params returns raises mutators, d.body = .declared params returns raises mutators ∧
    decorator.arity? = some ((beforeStar params).countP Param.isOrdinary) ∧
    (decorator.role = .property ∨ decorator.target = d.name)

-- A definition that a property accepts.
def Definition.FitsProperty (d : Definition) : Prop :=
  ∃ s, d.signature? = some s ∧ Merge.fitsProperty d s = true

namespace Merge

theorem fitsProperty_iff (d : Definition) (s : Signature) : fitsProperty d s = true ↔
    d.decorator.arity? = some (positional s).length ∧
      (d.decorator.role = .property ∨ d.decorator.target = d.name) := by
  unfold fitsProperty Decorator.arity? Decorator.target
  generalize (positional s).length = count
  cases d.decorator.role with
  | property => simp [eq_comm (a := count)]
  | setter target => simp [eq_comm (a := count), and_comm]
  | deleter target => simp [eq_comm (a := count), and_comm]
  | _ => simp

section

variable {line : Option Int} {d : Definition} {defs group : List Definition}

theorem accessor_of_fits (h : d.FitsProperty) : ∃ type, accessor line d = .ok type := by
  obtain ⟨s, hs, hfits⟩ := h
  exact ⟨accessorType d s, by simp [accessor, hs, hfits]⟩

theorem accessor_of_not_fits (h : ¬ d.FitsProperty) :
    accessor line d = .error (unhandled line d) := by
  unfold accessor
  cases hs : d.signature? with
  | none => rfl
  | some s =>
      have hno : ¬ fitsProperty d s = true := fun hfits => h ⟨s, hs, hfits⟩
      exact if_neg hno

-- Where definitions make the members of a class, each accessor among them fits.
theorem fits_of_classMembers {members : List Member} (h : classMembers line defs = .ok members)
    (hd : d ∈ defs) (hp : d.decorator.isProperty = true) : d.FitsProperty := by
  have hgroup : named defs d.name ∈ groups defs := by
    rw [groups_eq]
    exact List.mem_map_of_mem (List.mem_eraseDups.mpr (List.mem_map_of_mem hd))
  have hmem : d ∈ named defs d.name := mem_named.mpr ⟨hd, rfl⟩
  obtain ⟨m, -, hm⟩ := exists_of_mem_forall₂ (memberOf_classMembers h).flip hgroup
  cases hm with
  | method hn _ => exact absurd hp (List.any_eq_false.mp hn d hmem)
  | property _ _ hproperty =>
      obtain ⟨told, htold, -⟩ := except_bind_ok hproperty
      obtain ⟨type, -, htype⟩ := exists_of_mem_forall₂ (mapM_except_ok_iff.mp htold).flip hmem
      by_contra hno
      rw [accessor_of_not_fits hno] at htype
      cases htype

-- The first thing wrong with the definitions of a class: a definition that its property does not
-- accept. The groups before its own merge, and in its group only accessors stand, those before it
-- accepted.
def FirstUnfit (line : Option Int) (defs : List Definition) (d : Definition) : Prop :=
  ∃ earlier later front back, groups defs = earlier ++ (front ++ d :: back) :: later ∧
    (∀ group ∈ earlier, ∃ m, member line group = .ok m) ∧
    (∀ x ∈ front ++ d :: back, x.decorator.isProperty = true) ∧
    (∀ x ∈ front, x.FitsProperty) ∧ ¬ d.FitsProperty

theorem checkRecognized_of_isProperty
    (h : ∀ d ∈ group, d.decorator.isProperty = true) : checkRecognized line group = .ok () := by
  have hnone : group.find? (·.decorator.role == .unrecognized) = none := by
    rw [List.find?_eq_none]
    intro d hd hrole
    have hp := h d hd
    rw [Decorator.isProperty, beq_iff_eq.mp hrole] at hp
    cases hp
  rw [checkRecognized, hnone]

theorem classMembers_of_firstUnfit (h : FirstUnfit line defs d) :
    classMembers line defs = .error (unhandled line d) := by
  obtain ⟨earlier, later, front, back, hgroups, hearlier, hall, hfront, hd⟩ := h
  have hproperty : property line (front ++ d :: back) = .error (unhandled line d) := by
    rw [property, mapM_except_error (fun x hx => accessor_of_fits (hfront x hx))
      (accessor_of_not_fits hd)]
    rfl
  have hmember : member line (front ++ d :: back) = .error (unhandled line d) := by
    have hhas : hasProperty (front ++ d :: back) = true :=
      List.any_eq_true.mpr ⟨d, by simp, hall d (by simp)⟩
    rw [member, checkRecognized_of_isProperty hall]
    show (if _ then if _ then _ else _ else _) = _
    rw [if_pos hhas, if_pos (List.all_eq_true.mpr hall), hproperty]
    rfl
  rw [classMembers, hgroups]
  exact mapM_except_error hearlier hmember

-- A lone accessor that does not fit is the first thing wrong.
theorem firstUnfit_single (hp : d.decorator.isProperty = true) (hd : ¬ d.FitsProperty) :
    FirstUnfit line [d] d :=
  ⟨[], [], [], [], by simp [groups, List.eraseDups_cons], by simp, by simpa using hp, by simp, hd⟩

end

end Merge

namespace Build

theorem decorator_single {line : Int32} {d : Def} {text : Text} {decorator : Decorator}
    {before after : BuildState} (hd : d.decorators = [text])
    (h : Build.decorator line d before = .ok decorator after) : decorator = .ofText text := by
  rw [Build.decorator, hd] at h
  obtain ⟨rfl, -⟩ := (EStateM.Result.ok.injEq ..).mp h
  rfl

-- A definition fits a property if it is written so.
theorem definition_fits {line : Int32} {d : Def} {text : Text} {made : Definition}
    {before after : BuildState} (hd : d.decorators = [text])
    (h : definition line d before = .ok made after) :
    made.decorator = .ofText text ∧ (made.FitsProperty ↔ d.FitsAccessor (.ofText text)) := by
  obtain ⟨decorator, middle, hdecorator, hrest⟩ := run_bind_ok h
  obtain rfl := decorator_single hd hdecorator
  cases hbody : d.body with
  | external =>
      simp only [hbody] at hrest
      obtain ⟨rfl, -⟩ := (EStateM.Result.ok.injEq ..).mp hrest
      refine ⟨rfl, ?_⟩
      constructor
      · rintro ⟨s, hs, -⟩
        cases hs
      · rintro ⟨params, returns, raises, mutators, hdeclared, -⟩
        rw [hbody] at hdeclared
        cases hdeclared
  | declared params returns raises mutators =>
      simp only [hbody] at hrest
      obtain ⟨s, last, hs, hlast⟩ := run_bind_ok hrest
      obtain ⟨rfl, -⟩ := (EStateM.Result.ok.injEq ..).mp hlast
      have hcount : (Merge.positional s).length = (beforeStar params).countP Param.isOrdinary :=
        (signature_describes hs).positional
      refine ⟨rfl, ?_⟩
      constructor
      · rintro ⟨s', hsome, hfits⟩
        obtain rfl := Option.some.inj hsome
        rw [Merge.fitsProperty_iff, hcount] at hfits
        exact ⟨params, returns, raises, mutators, hbody, hfits⟩
      · rintro ⟨params', _, _, _, hdeclared, hfits⟩
        rw [hbody] at hdeclared
        obtain ⟨rfl, -⟩ := (DefBody.declared.injEq ..).mp hdeclared
        refine ⟨s, rfl, ?_⟩
        rw [Merge.fitsProperty_iff, hcount]
        exact hfits

end Build

end TypeStub
