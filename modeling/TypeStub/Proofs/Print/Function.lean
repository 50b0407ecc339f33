import TypeStub.Print.Module
import TypeStub.Proofs.Grammar.ModuleText
import TypeStub.Proofs.Print.Typed
import TypeStub.Proofs.Print.Uses

-- The text of a function, line by line.
namespace TypeStub

open Grammar

theorem joinWith_nil (parts : List Text) : Text.joinWith [] parts = parts.flatten := by
  cases parts with
  | nil => rfl
  | cons first rest =>
      rw [Text.joinWith_cons_flatMap, List.flatten_cons]
      exact congrArg (first ++ ·) List.flatMap_id'

theorem joinWith_flatMap {ι : Type} {separator : Text} {lines : ι → List Text} {is : List ι}
    (h : ∀ i ∈ is, lines i ≠ []) :
    Text.joinWith separator (is.map fun i => Text.joinWith separator (lines i)) =
      Text.joinWith separator (is.flatMap lines) := by
  induction is with
  | nil => rfl
  | cons i rest ih =>
      cases rest with
      | nil => simp [Text.joinWith_singleton]
      | cons next more =>
          have hmore : (next :: more).flatMap lines ≠ [] := by
            rw [List.flatMap_cons]
            exact List.append_ne_nil_of_left_ne_nil (h next (by simp)) _
          rw [List.flatMap_cons, joinWith_append (h i (by simp)) hmore,
            ← ih fun j hj => h j (by simp [hj]), List.map_cons, List.map_cons, Text.joinWith_cons]

namespace Print

-- The type of a parameter as it is written: object goes without.
def writtenHint? (type : Ty) : Option Written :=
  if type.isNamed "object" then none else some (written type)

def paramText (p : Parameter) : ParamText := .ordinary p.name (writtenHint? p.type) p.isOptional

-- What is written of a star parameter's container is the type in its last place.
def starHint? (p : Parameter) : Option Written :=
  match p.type with
  | .generic _ params => params.getLast?.map written
  | _ => none

def starText (p : Parameter) : ParamText := .star p.name (starHint? p)

def doubleStarText (p : Parameter) : ParamText := .doubleStar p.name (starHint? p)

def paramTexts (s : Signature) : List ParamText :=
  let star := s.starArgs.map starText
  let plain := s.params.takeWhile (!·.keywordOnly)
  let others := s.params.drop plain.length
  let marker := if others.isEmpty then star.toList else [star.getD .bareStar]
  plain.map paramText ++ marker ++ others.map paramText ++
    (s.starStarArgs.map doubleStarText).toList

def lineTexts (s : Signature) : List LineText :=
  s.mutators.map (fun m => .mutates m.name (written m.type)) ++
    s.exceptions.map (fun type => .raises (written type))

def defText (s : Signature) : DefText :=
  .declared (paramTexts s) (written s.returns) (lineTexts s)

def decoratorTexts (name : Text) (kind : FunctionKind) : List Text :=
  match kind with
  | .staticMethod => if name = "__new__" then [] else ["staticmethod"]
  | .classMethod => ["classmethod"]
  | .method => []

theorem decoratorTexts_cases (name : Text) (kind : FunctionKind) :
    decoratorTexts name kind = [] ∨ decoratorTexts name kind = ["staticmethod"] ∨
      decoratorTexts name kind = ["classmethod"] := by
  unfold decoratorTexts
  cases kind with
  | method => exact .inl rfl
  | classMethod => exact .inr (.inr rfl)
  | staticMethod =>
      by_cases h : name = "__new__"
      · exact .inl (if_pos h)
      · exact .inr (.inl (if_neg h))

def functionTexts (f : StubFunction) : List MemberText :=
  if f.isExternal then [.definition f.name [] .external]
  else f.signatures.map fun s => .definition f.name (decoratorTexts f.name f.kind) (defText s)

section

variable (home : Text)

theorem parameter_text (p : Parameter) : (parameter home p).text = (paramText p).text := by
  have htyped : (if p.type.isNamed "object" then (p.name : Piece)
      else p.name ++ ": " ++ type home p.type).text = p.name ++ hintText (writtenHint? p.type) := by
    unfold writtenHint?
    split
    · exact (List.append_nil _).symm
    · exact (congrArg (p.name ++ ": " ++ ·) (type_text home p.type)).trans (List.append_assoc ..)
  have hall : (parameter home p).text =
      p.name ++ hintText (writtenHint? p.type) ++ defaultText p.isOptional := by
    rw [← htyped]
    unfold parameter defaultText
    cases p.isOptional with
    | true => rfl
    | false => exact (List.append_nil _).symm
  rw [hall, List.append_assoc]
  rfl

theorem starParameter_text (stars : Text) (p : Parameter) :
    (starParameter home stars p).text = stars ++ (p.name ++ hintText (starHint? p)) := by
  have hplain : stars ++ p.name = stars ++ (p.name ++ hintText none) := by
    rw [hintText, Option.elim_none, List.append_nil]
  unfold starParameter starHint?
  cases p.type with
  | generic base params =>
      dsimp only
      cases params.getLast? with
      | none => exact hplain
      | some element =>
          show stars ++ p.name ++ ": " ++ (type home element).text = _
          rw [type_text, List.append_assoc, List.append_assoc]
          rfl
  | _ => exact hplain

theorem parameters_text (s : Signature) :
    (parameters home s).map (·.text) = (paramTexts s).map ParamText.text := by
  have hplain : ∀ ps : List Parameter, (ps.map (parameter home)).map (·.text) =
      (ps.map paramText).map ParamText.text := by
    intro ps
    rw [List.map_map, List.map_map]
    exact List.map_congr_left fun p _ => parameter_text home p
  have hdouble : ((s.starStarArgs.map (starParameter home "**")).toList).map (·.text) =
      ((s.starStarArgs.map doubleStarText).toList).map ParamText.text := by
    cases s.starStarArgs with
    | none => rfl
    | some p => exact congrArg (fun text => [text]) (starParameter_text home "**" p)
  unfold parameters paramTexts
  simp only [List.map_append, hplain, hdouble]
  congr 3
  cases s.starArgs with
  | none => split <;> rfl
  | some p =>
      have hstar := congrArg (fun text => [text]) (starParameter_text home "*" p)
      split <;> exact hstar

theorem decorators_text (name : Text) (kind : FunctionKind) (first : Text) (rest : List Text) :
    Text.joinWith "\n" ((decoratorTexts name kind).map (fun text => ("@" ++ text : Text)) ++
      first :: rest) = decoratorLine name kind ++ Text.joinWith "\n" (first :: rest) := by
  have hstatic : ("@" ++ "staticmethod" ++ "\n" : Text) = "@staticmethod\n" := by decide
  have hclass : ("@" ++ "classmethod" ++ "\n" : Text) = "@classmethod\n" := by decide
  unfold decoratorTexts decoratorLine
  cases kind with
  | method => rfl
  | classMethod =>
      rw [← hclass]
      exact Text.joinWith_cons ..
  | staticMethod =>
      dsimp only
      split
      · rfl
      · rw [← hstatic]
        exact Text.joinWith_cons ..

theorem bodyLines_text (s : Signature) :
    (s.mutators.map (mutator home) ++ s.exceptions.map (raised home)).map (·.text) =
      (lineTexts s).map LineText.text := by
  unfold lineTexts
  simp only [List.map_append, List.map_map]
  refine congrArg₂ (· ++ ·) (List.map_congr_left fun m _ => ?_)
    (List.map_congr_left fun t _ => ?_)
  · show m.name ++ " := " ++ (type home m.type).text = m.name ++ (" := " ++ typeText m.type)
    rw [type_text, List.append_assoc]
  · show "raise " ++ (type home t).text ++ "()" = "raise " ++ (typeText t ++ "()")
    rw [type_text, List.append_assoc]

-- The lines of the body, each after a line break.
theorem body_text (s : Signature) :
    (Piece.joinWith [] ((s.mutators.map (mutator home) ++ s.exceptions.map (raised home)).map
      fun line => ("\n" ++ indentation ++ line : Piece))).text =
      (lineTexts s).flatMap fun l => ("\n" ++ (Text.spaces 4 ++ l.text) : Text) := by
  have hindent : indentation = Text.spaces 4 := by decide
  have htexts := congrArg (List.flatMap fun text => ("\n" ++ (Text.spaces 4 ++ text) : Text))
    (bodyLines_text home s)
  rw [List.flatMap_map, List.flatMap_map] at htexts
  rw [joinWith_text, joinWith_nil, List.map_map, ← List.flatMap_def, ← htexts, hindent]
  rfl

theorem signature_text (name : Text) (kind : FunctionKind) (s : Signature) :
    (signature home name kind s).text =
      Text.joinWith "\n" ((defText s).lines name (decoratorTexts name kind)) := by
  have hhead : ∀ tail : Text, decoratorLine name kind ++ "def " ++ name ++ "(" ++
      (Piece.joinWith ", " (parameters home s)).text ++ ") -> " ++ (type home s.returns).text ++
        tail = decoratorLine name kind ++ ("def " ++ (name ++ ("(" ++
          (Text.joinWith ", " ((paramTexts s).map ParamText.text) ++
            (") -> " ++ (typeText s.returns ++ tail)))))) := by
    intro tail
    rw [joinWith_text, parameters_text, type_text]
    simp only [List.append_assoc]
  have hlines := bodyLines_text home s
  rw [DefText.lines, decorators_text, Text.joinWith_cons_flatMap, List.flatMap_map]
  show _ = decoratorLine name kind ++ ((defText s).header name ++
    (lineTexts s).flatMap fun l => ("\n" ++ (Text.spaces 4 ++ l.text) : Text))
  unfold signature
  dsimp only
  split
  · rename_i hbody
    have hnone : lineTexts s = [] := by
      rw [hbody] at hlines
      exact List.map_eq_nil_iff.mp hlines.symm
    rw [hnone, List.flatMap_nil, List.append_nil]
    refine (hhead ": ...").trans ?_
    rw [defText, DefText.header, DefText.endText, hnone]
    rfl
  · rename_i hbody
    have hsome : ¬(lineTexts s).isEmpty = true := by
      rw [List.isEmpty_iff]
      intro hnone
      rw [hnone] at hlines
      exact hbody (List.map_eq_nil_iff.mp hlines)
    have hline := hhead (":" ++ (lineTexts s).flatMap fun l =>
      ("\n" ++ (Text.spaces 4 ++ l.text) : Text))
    rw [← List.append_assoc] at hline
    refine (congrArg (_ ++ ·) (body_text home s)).trans (hline.trans ?_)
    rw [defText, DefText.header, DefText.endText, if_neg hsome]
    simp only [List.append_assoc]
    rfl

theorem function_text (f : StubFunction) : (function home f).text =
    Text.joinWith "\n" ((functionTexts f).flatMap MemberText.lines) := by
  unfold function functionTexts
  split
  · exact (Text.joinWith_singleton _ _).symm
  · have hsignatures : (f.signatures.map (signature home f.name f.kind)).map (·.text) =
        f.signatures.map fun s =>
          Text.joinWith "\n" ((defText s).lines f.name (decoratorTexts f.name f.kind)) := by
      rw [List.map_map]
      exact List.map_congr_left fun s _ => signature_text home f.name f.kind s
    rw [joinWith_text, hsignatures, joinWith_flatMap fun _ _ => by simp [DefText.lines],
      List.flatMap_map]
    rfl

end

end Print

end TypeStub
