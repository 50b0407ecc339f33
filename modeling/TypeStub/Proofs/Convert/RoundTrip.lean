import TypeStub.Grammar.Statement
import TypeStub.Proofs.Convert.Back
import TypeStub.Proofs.Grammar.TypeComplete
import TypeStub.Proofs.Print.Printable
import TypeStub.Proofs.Token.Block

-- The text of a type decodes to the type.
namespace TypeStub

open Print

theorem Expr.nestingAll_le {elements : List Expr} {depth : Nat}
    (h : ∀ element ∈ elements, element.nesting ≤ depth) : nestingAll elements ≤ depth := by
  induction elements with
  | nil => exact Nat.zero_le _
  | cons element rest ih =>
      rw [List.forall_mem_cons] at h
      exact Nat.max_le.mpr ⟨h.1, ih h.2⟩

namespace Grammar

theorem Sequenced.forall_mem {α : Type} {R : List Token → α → Prop} {P : α → Prop}
    {separator : TokenKind} {span : List Token} {as : List α} (h : Sequenced separator R span as)
    (hR : ∀ ⦃span a⦄, R span a → P a) : ∀ a ∈ as, P a := by
  induction h with
  | one ha => exact List.forall_mem_singleton.mpr (hR ha)
  | more ha _ _ ih => exact List.forall_mem_cons.mpr ⟨hR ha, ih⟩

-- The nesting of what is read stays within the depth of the derivation. Parentheses only add to
-- the latter.
theorem IsType.nesting_le {depth : Nat} : ∀ {span : List Token} {e : Expr},
    IsType depth span e → e.nesting ≤ depth := by
  induction depth with
  | zero => exact fun h => h.elim
  | succ depth ih =>
      have hlisted : ∀ {types : List Token} {es : List Expr}, Listed (IsType depth) types es →
          Expr.nestingAll es + 1 ≤ depth + 1 := by
        rintro types es ⟨body, tail, -, hbody, -⟩
        exact Nat.succ_le_succ (Expr.nestingAll_le (hbody.forall_mem fun _ _ h => ih h))
      rintro span e (hatom | ⟨operands, -, -, rfl⟩)
      · cases hatom with
        | parenthesized _ h _ => exact Nat.le_succ_of_le (ih h)
        | list _ h _ => exact hlisted h
        | subscript _ _ h _ => exact hlisted h
        | _ => exact Nat.succ_le_succ (Nat.zero_le depth)
      · exact Nat.succ_le_succ (Nat.zero_le depth)

section

variable {text : Text} {e : Expr}

-- The tokens of a type on a line of its own.
theorem Typed.tokenize_eq (h : Typed text e) (ho : Opens text) : ∃ tokens stop,
    tokenize (sourceLines text) = tokens ++ stop ∧ tokens.map Token.spelling = spell text ∧
      stop.map Token.spelling = [sign .newline, sign .endOfFile] := by
  have hline : Line text (spell text) := .of_spells ho h.spells delimited_nil h.balanced
  have hne : text ≠ [] := by
    obtain ⟨c, rest, rfl, -⟩ := hline.opens
    simp
  have hlines : sourceLines text = [text] :=
    sourceLines_eq (splitLines_line hline.inline.1 hne) (by simpa using hline.inline)
  have hlays := hline.block.lays 0
  simp only [List.map_singleton] at hlays
  have htokens := tokenize_spelling hlines (by simpa [Text.spaces] using hlays)
  rw [List.append_assoc] at htokens
  obtain ⟨tokens, stop, heq, hspelled, hstop⟩ := List.map_eq_append_iff.mp htokens
  exact ⟨tokens, stop, heq, hspelled, hstop⟩

-- Read with a budget for so many nested types, it is the type, or an error if it nests deeper.
theorem Typed.typeExpr_eq (h : Typed text e) {tokens stop : List Token}
    (ht : tokens.map Token.spelling = spell text)
    (hs : stop.map Token.spelling = [sign .newline, sign .endOfFile]) (budget : Nat) :
    (e.nesting ≤ budget → typeExpr budget (tokens ++ stop) = .ok e stop) ∧
      (budget < e.nesting →
        ∃ left, typeExpr budget (tokens ++ stop) = .error .nestingTooDeep left) := by
  have hends : TypeEnds e (stop.map Token.spelling) := by
    rw [hs]
    exact typeEnds_of_mem [.newline] (by simp) (by decide)
  have hreads : ∀ enough, e.nesting ≤ enough → typeExpr enough (tokens ++ stop) = .ok e stop := by
    intro enough hle
    obtain ⟨read, hread, rfl⟩ := h.reads enough hle tokens stop ht hends
    exact hread
  refine ⟨hreads budget, fun hlt => ?_⟩
  obtain ⟨span, hspan, htype⟩ := sound_typeExpr _ (hreads e.nesting (Nat.le_refl _))
  have hfollow : FollowsType (stop.headD Token.stop).kind := by
    obtain ⟨first, rest, rfl, hfirst, -⟩ := List.map_eq_cons_iff.mp hs
    rw [List.headD_cons, show first.kind = .newline from congrArg Prod.fst hfirst]
    simp [FollowsType, FollowsAtom]
  have htakes : Parser.Takes True (typeExpr budget) (IsType e.nesting) FollowsType :=
    takes_typeExpr budget e.nesting fun _ => trivial
  rw [hspan]
  rcases htakes htype stop hfollow with hok | ⟨-, herror⟩
  · obtain ⟨other, -, hother⟩ := sound_typeExpr _ hok
    exact absurd hother.nesting_le (Nat.not_le.mpr hlt)
  · exact herror

end

end Grammar

theorem DottedName.opens {name : Text} (h : DottedName name) : Opens name := by
  cases h with
  | single h => exact h.opens
  | cons h _ => exact h.opens.append _

-- The text of a type starts with a name.
theorem Ty.ReadsBack.opens {names : Names} {type : Ty} (h : type.ReadsBack names) :
    Opens (typeText type) := by
  cases type with
  | generic base params =>
      rw [typeText, generic_text]
      exact h.1.1.opens.append _
  | tuple base params =>
      rw [typeText, tuple_text]
      exact h.1.1.opens.append _
  | callable base args result =>
      rw [typeText, callable_text]
      exact h.1.1.opens.append _
  | union members =>
      rw [typeText, union_text]
      unfold unionText
      split
      · split <;> exact dottedName_optional.opens.append _
      · exact dottedName_union.opens.append _
  | _ => exact h.1.opens

namespace Convert

-- The text of such a type is one line of tokens, and to read them gives the type back, unless more
-- types are nested in it than may be.
theorem type_roundTrip {vars : List Text} (hvars : ∀ word ∈ vars, VariableName word) {type : Ty}
    (h : type.Printable vars) : ∃ tokens stop,
      tokenize (sourceLines (typeText type)) = tokens ++ stop ∧
      stop.map Token.spelling = [sign .newline, sign .endOfFile] ∧
      ((expr type).nesting ≤ Grammar.nestingLimit →
        ∃ e, Grammar.typeExpr Grammar.nestingLimit (tokens ++ stop) = .ok e stop ∧
          ∀ records, Convert.type ⟨true, [], vars, []⟩ e records = .ok type records) ∧
      (Grammar.nestingLimit < (expr type).nesting →
        ∃ left, Grammar.typeExpr Grammar.nestingLimit (tokens ++ stop) =
          .error .nestingTooDeep left) := by
  have hnames : Names.Standard vars ⟨true, [], vars, []⟩ := ⟨rfl, rfl, rfl, hvars, by simp⟩
  have hrestored := h.restored hnames
  have htyped := typed_type type hrestored.canonical hrestored.readsBack
  obtain ⟨tokens, stop, heq, htokens, hstop⟩ := htyped.tokenize_eq hrestored.readsBack.opens
  obtain ⟨hread, hdeep⟩ := htyped.typeExpr_eq htokens hstop Grammar.nestingLimit
  refine ⟨tokens, stop, heq, hstop, fun hle => ⟨expr type, hread hle, fun records => ?_⟩, hdeep⟩
  have hgives : Gives records (Convert.type ⟨true, [], vars, []⟩ (expr type)) type.noneLast :=
    gives_type type hrestored.canonical hrestored.readsBack
  rwa [hrestored.noneLast] at hgives

theorem type_roundTrip_optional :
    let vars : List Text := ["T"]
    let element : Ty := .parameter "T"
    let pair : Ty := .tuple (.named "tuple") [.named "a.B", .generic (.named "tuple") [element]]
    let call : Ty := .callable (.named "typing.Callable") [pair, .anything] .nothing
    let type : Ty := .union [.generic (.named "list") [call], element, .named "NoneType"]
    (∀ word ∈ vars, VariableName word) ∧ type.Printable vars ∧
      (expr type).nesting ≤ Grammar.nestingLimit ∧
      typeText type = "Optional[Union[List[Callable[[Tuple[a.B, Tuple[T, ...]], Any], nothing]], T]]" ∧
      ∃ tokens stop, tokenize (sourceLines (typeText type)) = tokens ++ stop ∧
        ∃ e, Grammar.typeExpr Grammar.nestingLimit (tokens ++ stop) = .ok e stop ∧
          Convert.type ⟨true, [], vars, []⟩ e ⟨[], []⟩ = .ok type ⟨[], []⟩ := by
  intro vars element pair call type
  have hvars : ∀ word ∈ vars, VariableName word := by
    rw [List.forall_mem_singleton]
    exact ⟨by decide, rfl, by decide⟩
  have helement : element.Printable vars := List.mem_singleton_self _
  have hname : (Ty.named "a.B").Printable vars :=
    .inr (.inr ⟨.cons (by decide : PlainWord "a") (.single (by decide)), by decide, by decide, rfl,
      rfl⟩)
  have hpair : pair.Printable vars :=
    ⟨rfl, by simp, hname, ⟨⟨helement, trivial⟩, .inl ⟨rfl, rfl⟩⟩, trivial⟩
  have hcall : call.Printable vars := ⟨rfl, by simp, ⟨hpair, trivial, trivial⟩, trivial⟩
  have hlist : (Ty.generic (.named "list") [call]).Printable vars := by
    refine ⟨⟨hcall, trivial⟩, .inr (.inr ⟨.inr (.inr ?_), by simp, by simp, by simp⟩)⟩
    exact ⟨.single (by decide), by decide, by decide, rfl, rfl⟩
  have htype : type.Printable vars :=
    ⟨by decide, by simp [element], by decide, by simp [element], hlist, helement, .inl rfl, trivial⟩
  have hnesting : (expr type).nesting ≤ Grammar.nestingLimit := by decide
  obtain ⟨tokens, stop, heq, -, hread, -⟩ := type_roundTrip hvars htype
  obtain ⟨e, he, hback⟩ := hread hnesting
  exact ⟨hvars, htype, hnesting, by decide, tokens, stop, heq, e, he, hback _⟩

end Convert

end TypeStub
