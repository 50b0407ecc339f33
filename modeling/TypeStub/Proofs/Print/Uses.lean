import TypeStub.Proofs.Print.Printable

-- What the text of a type relies on.
namespace TypeStub

theorem splitLastDot_append_dot (word rest : Text) : Text.splitLastDot (word ++ '.' :: rest) =
    match Text.splitLastDot rest with
    | some (before, after) => some (word ++ '.' :: before, after)
    | none => some (word, rest) := by
  induction word with
  | nil =>
      rw [List.nil_append, Text.splitLastDot]
      cases Text.splitLastDot rest <;> rfl
  | cons c more ih =>
      rw [List.cons_append, Text.splitLastDot, ih]
      cases Text.splitLastDot rest <;> rfl

theorem splitLastDot_eq_none {word : Text} (h : '.' ∉ word) : Text.splitLastDot word = none := by
  induction word with
  | nil => rfl
  | cons c more ih =>
      rw [List.mem_cons, not_or] at h
      rw [Text.splitLastDot, ih h.2]
      exact if_neg (Ne.symm h.1)

theorem PlainWord.dot_not_mem {word : Text} (h : PlainWord word) : '.' ∉ word := fun hm =>
  absurd (List.all_eq_true.mp h.letters '.' hm) (by decide)

-- What stands before the last dot of a name is a name.
theorem PlainName.before_dot {name : Text} (h : PlainName name) : ∀ {before after : Text},
    Text.splitLastDot name = some (before, after) → PlainName before := by
  induction h with
  | single h =>
      intro before after hs
      rw [splitLastDot_eq_none h.dot_not_mem] at hs
      cases hs
  | @cons word rest h _ ih =>
      intro before after hs
      rw [splitLastDot_append_dot] at hs
      cases hr : Text.splitLastDot rest with
      | none =>
          rw [hr] at hs
          obtain ⟨rfl, -⟩ := Prod.mk.inj (Option.some.inj hs)
          exact .single h
      | some pair =>
          rw [hr] at hs
          obtain ⟨rfl, -⟩ := Prod.mk.inj (Option.some.inj hs)
          exact .cons h (ih hr)

-- A name of the typing module that is built in, or a module by a plain name.
def Use.Known : Use → Prop
  | .typing name => PlainWord name ∧ Builtin.ofName? name ≠ none
  | .module name => PlainName name

namespace Piece

-- A text that only relies on such names.
def Known (piece : Piece) : Prop := ∀ use ∈ piece.uses, use.Known

theorem known_text (text : Text) : Known text := by simp [Known]

theorem Known.append {piece other : Piece} (h : piece.Known) (ho : other.Known) :
    (piece ++ other).Known := fun use hu => (List.mem_append.mp hu).elim (h use) (ho use)

theorem known_joinWith (separator : Text) {pieces : List Piece}
    (h : ∀ piece ∈ pieces, piece.Known) : (joinWith separator pieces).Known := by
  intro use hu
  obtain ⟨piece, hp, hu⟩ := List.mem_flatMap.mp hu
  exact h piece hp use hu

theorem known_ofTyping {word : Text} (hw : PlainWord word) (hb : Builtin.ofName? word ≠ none) :
    (ofTyping word).Known := by
  intro use hu
  obtain rfl := List.mem_singleton.mp hu
  exact ⟨hw, hb⟩

end Piece

namespace Print

open Piece

variable {vars : List Text} {home : Text}

theorem known_atom {type : Ty} (h : type.PrintableAtom vars) :
    (Print.type home type).Known := by
  cases type with
  | named name =>
      show (nameType home name).Known
      unfold nameType
      split
      · exact known_text _
      · rename_i hname
        rcases h with rfl | ⟨word, hword, -, -, rfl⟩ | ⟨hplain, -, -, -, htyping⟩
        · exact absurd rfl hname
        · rw [after?_append]
          exact known_ofTyping (plainWord_typingName word (typingName_of_builtin hword))
            (by rw [hword]; simp)
        · rw [htyping]
          dsimp only
          split
          · rename_i hsplit
            split
            · exact known_text _
            · intro use hu
              obtain rfl := List.mem_singleton.mp hu
              exact hplain.before_dot hsplit
          · exact known_text _
  | anything => exact known_ofTyping (by decide) (by decide)
  | nothing => exact known_text _
  | parameter name => exact known_text _
  | _ => exact h.elim

-- Before brackets a container relies on its name in the typing module.
theorem known_base {base : Ty} (h : (Print.type home base).Known) :
    (baseType base (Print.type home base)).Known := by
  have hcontainers : ∀ pair ∈ Builtin.containers, PlainWord pair.1 ∧
      Builtin.ofName? pair.1 ≠ none := by decide
  cases base with
  | named name =>
      show Piece.Known (((capitalized? name).map Piece.ofTyping).getD _)
      cases hc : capitalized? name with
      | none => exact h
      | some word =>
          obtain ⟨pair, hfound, rfl⟩ := Option.map_eq_some_iff.mp hc
          obtain ⟨hplain, hbuiltin⟩ := hcontainers pair (List.mem_of_find?_eq_some hfound)
          exact known_ofTyping hplain hbuiltin
  | _ => exact h

theorem known_bracketed {base params : Piece} (hb : base.Known) (hp : params.Known)
    (opening closing : Text) : (base ++ (opening : Piece) ++ params ++ (closing : Piece)).Known :=
  ((hb.append (known_text _)).append hp).append (known_text _)

theorem known_genericParams {base : Ty} {params : List Piece} (h : ∀ piece ∈ params, piece.Known) :
    (genericParams base params).Known := by
  unfold genericParams
  split
  · rename_i single
    have hsingle := h single (by simp)
    split
    · exact hsingle.append (known_text _)
    · exact hsingle
  · exact known_joinWith _ h

theorem known_unionType {hasNone : Bool} {others : List Piece}
    (h : ∀ piece ∈ others, piece.Known) : (unionType hasNone others).Known := by
  have hunion : (Piece.ofTyping "Union").Known := known_ofTyping (by decide) (by decide)
  have hoptional : (Piece.ofTyping "Optional").Known := known_ofTyping (by decide) (by decide)
  have hmembers := known_joinWith ", " h
  unfold unionType
  dsimp only
  split
  · split
    · rename_i single
      exact known_bracketed hoptional (h single (by simp)) "[" "]"
    · exact (hoptional.append (known_text "[")).append (known_bracketed hunion hmembers "[" "]]")
  · exact known_bracketed hunion hmembers "[" "]"

theorem known_tuple : (Print.type home (.named "tuple")).Known := known_text "tuple"

theorem known_callable : (Print.type home (.named "typing.Callable")).Known :=
  @known_atom [] home _ Ty.printableAtom_callable

mutual

-- The cases are those of the text.
theorem known_type : ∀ type : Ty, type.Printable vars → (Print.type home type).Known
  | .named _, h | .anything, h | .nothing, h | .parameter _, h => known_atom h
  | .generic base params, h => by
      have hparams := known_types params h.1
      have hbase : (Print.type home base).Known := by
        rcases h.2 with ⟨rfl, -⟩ | ⟨rfl, -⟩ | ⟨hatom, -⟩
        · exact known_tuple
        · exact known_callable
        · exact known_atom hatom
      exact known_bracketed (known_base hbase) (known_genericParams hparams) "[" "]"
  | .tuple base params, h => by
      obtain ⟨rfl, -, hparams⟩ := h
      exact known_bracketed (known_base known_tuple)
        (known_joinWith _ (known_types params hparams)) "[" "]"
  | .callable base args result, h => by
      obtain ⟨rfl, -, hargs, hresult⟩ := h
      exact ((known_bracketed (known_base known_callable)
        (known_joinWith ", " (known_types args hargs)) "[[" "], ").append
          (known_type result hresult)).append (known_text "]")
  | .union members, h => known_unionType (known_members members h.2.2.2.2)

theorem known_types : ∀ types : List Ty, Ty.AllPrintable vars types →
    ∀ piece ∈ Print.types home types, piece.Known
  | [], _ => by simp [Print.types]
  | first :: rest, h => by
      have hfirst := known_type first h.1
      have hrest := known_types rest h.2
      exact List.forall_mem_cons.mpr ⟨hfirst, hrest⟩

theorem known_members : ∀ types : List Ty, Ty.AllPrintable vars types →
    ∀ piece ∈ Print.unionMembers home types, piece.Known
  | [], _ => by simp [Print.unionMembers]
  | first :: rest, h => by
      have hfirst := known_type first h.1
      have hrest := known_members rest h.2
      rw [Print.unionMembers]
      split
      · exact hrest
      · exact List.forall_mem_cons.mpr ⟨hfirst, hrest⟩

end

end Print

end TypeStub
