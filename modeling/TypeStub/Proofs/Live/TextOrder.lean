import TypeStub.Proofs.Live.Declarations

-- The order in which the records of a statement start in its text.
namespace TypeStub

-- A list in which two others are mixed, each in its own order.
inductive Mixes {α : Type} : List α → List α → List α → Prop
  | nil : Mixes [] [] []
  | left {as bs cs : List α} (a : α) (h : Mixes as bs cs) : Mixes (a :: as) bs (a :: cs)
  | right {as bs cs : List α} (b : α) (h : Mixes as bs cs) : Mixes as (b :: bs) (b :: cs)

-- If nothing comes from one of the two then it does not matter how they are mixed.
theorem Mixes.flatMap_eq {α β : Type} {as bs cs : List α} {f : α → List β} (h : Mixes as bs cs)
    (hf : as.flatMap f = [] ∨ bs.flatMap f = []) :
    cs.flatMap f = as.flatMap f ++ bs.flatMap f := by
  induction h with
  | nil => rfl
  | left a _ ih =>
      have hrest := hf.imp_left fun hnone => (List.append_eq_nil_iff.mp hnone).2
      rw [List.flatMap_cons, List.flatMap_cons, ih hrest, List.append_assoc]
  | right b _ ih =>
      have hrest := hf.imp_right fun hnone => (List.append_eq_nil_iff.mp hnone).2
      rw [List.flatMap_cons, List.flatMap_cons, ih hrest]
      rcases hf with hnone | hnone
      · rw [hnone, List.nil_append, List.nil_append]
      · rw [(List.append_eq_nil_iff.mp hnone).1, List.nil_append, List.nil_append]

namespace Live

open TypeStub.Convert

-- The records of types in the order of the text.
def textRecordsAll (names : Names) (types : List Expr) : List WrittenRecord :=
  types.flatMap (textRecords names)

-- An order in which the records of a definition may start in the text. Exceptions and mutators stand
-- in one body there, and the tree keeps them in two lists.
def BodyInText (names : Names) : DefBody → List WrittenRecord → Prop
  | .external, text => text = []
  | .declared params returns raises mutators, text =>
      ∃ mixed, Mixes raises (mutators.map (·.2)) mixed ∧
        text = textRecordsAll names
          (params.flatMap (·.hint?.toList) ++ (returns.toList ++ mixed))

def MemberInText (names : Names) : Stmt → List WrittenRecord → Prop
  | .definition _ d, text => BodyInText names d.body text
  | statement, text => text = textRecordsAll names statement.memberTypes

def InText : Names × Stmt → List WrittenRecord → Prop
  | (names, .definition _ d), text => BodyInText names d.body text
  | (names, .classDef _ _ args body), text =>
      ∃ members, List.Forall₂ (MemberInText names) body members ∧
        text = textRecordsAll names (args.map (·.value)) ++ members.flatten
  | (names, statement), text => text = textRecordsAll names statement.types

-- A definition that does not have records in its exceptions and in its mutators.
def BodyApart (names : Names) : DefBody → Prop
  | .external => True
  | .declared _ _ raises mutators =>
      textRecordsAll names raises = [] ∨ textRecordsAll names (mutators.map (·.2)) = []

def MemberApart (names : Names) : Stmt → Prop
  | .definition _ d => BodyApart names d.body
  | _ => True

-- A statement whose records are converted in the order of the text.
structure Apart (place : Names × Stmt) : Prop where
  oneSided : ∀ e ∈ place.2.types, OneSided place.1 e
  definition : MemberApart place.1 place.2
  members : ∀ spot name args body, place.2 = .classDef spot name args body →
    ∀ member ∈ body, MemberApart place.1 member

variable {names : Names} {text : List WrittenRecord}

theorem textRecordsAll_append (types more : List Expr) :
    textRecordsAll names (types ++ more) =
      textRecordsAll names types ++ textRecordsAll names more := List.flatMap_append

theorem BodyInText.eq {body : DefBody} (h : BodyInText names body text)
    (ha : BodyApart names body) : text = textRecordsAll names body.types := by
  cases body with
  | external => exact h
  | declared params returns raises mutators =>
      obtain ⟨mixed, hmixed, rfl⟩ := h
      have hall : textRecordsAll names mixed =
          textRecordsAll names (raises ++ mutators.map (·.2)) := by
        rw [textRecordsAll_append]
        exact hmixed.flatMap_eq ha
      simp only [DefBody.types, textRecordsAll_append, hall]

theorem MemberInText.eq {member : Stmt} (h : MemberInText names member text)
    (ha : MemberApart names member) : text = textRecordsAll names member.memberTypes := by
  cases member with
  | definition place d => exact BodyInText.eq h ha
  | _ => exact h

theorem membersInText_eq {body : List Stmt} {members : List (List WrittenRecord)}
    (h : List.Forall₂ (MemberInText names) body members)
    (ha : ∀ member ∈ body, MemberApart names member) :
    members.flatten = textRecordsAll names (body.flatMap Stmt.memberTypes) := by
  induction h with
  | nil => rfl
  | cons hfirst _ ih =>
      obtain ⟨hmember, hrest⟩ := List.forall_mem_cons.mp ha
      rw [List.flatten_cons, List.flatMap_cons, textRecordsAll_append, MemberInText.eq hfirst hmember,
        ih hrest]

theorem InText.eq {place : Names × Stmt} (h : InText place text) (ha : Apart place) :
    text = textRecordsAll place.1 place.2.types := by
  obtain ⟨names, statement⟩ := place
  cases statement with
  | definition spot d => exact BodyInText.eq h ha.definition
  | classDef spot name args body =>
      obtain ⟨members, hmembers, rfl⟩ := h
      rw [membersInText_eq hmembers (ha.members spot name args body rfl), Stmt.types,
        textRecordsAll_append]
  | _ => exact h

-- The records of a statement are opened in the order in which they start in the text.
theorem InText.eq_openedEach {place : Names × Stmt} (h : InText place text) (ha : Apart place) :
    text = openedEach (typesIn place) := by
  rw [InText.eq h ha]
  obtain ⟨names, statement⟩ := place
  simp only [textRecordsAll, openedEach, typesIn, List.flatMap_map]
  exact List.flatMap_congr fun e he => (openedRecords_eq (ha.oneSided e he)).symm

theorem openedEach_eq_text {places : List (Names × Stmt)} {texts : List (List WrittenRecord)}
    (h : List.Forall₂ InText places texts) (ha : ∀ place ∈ places, Apart place) :
    openedEach (places.flatMap typesIn) = texts.flatten := by
  induction h with
  | nil => rfl
  | cons hfirst _ ih =>
      obtain ⟨hplace, hrest⟩ := List.forall_mem_cons.mp ha
      rw [List.flatMap_cons, List.flatten_cons, InText.eq_openedEach hfirst hplace, ← ih hrest]
      exact List.flatMap_append

end Live

end TypeStub
