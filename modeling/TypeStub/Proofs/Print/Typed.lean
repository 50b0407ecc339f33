import TypeStub.Proofs.Grammar.StatementText
import TypeStub.Proofs.Print.Type

namespace TypeStub.Print

open TypeStub.Grammar

-- The text of a type and what is read from it.
def written (t : Ty) : Text × Expr := (typeText t, expr t)

theorem map_written_text (ts : List Ty) : (ts.map written).map (·.1) = ts.map typeText :=
  List.map_map ..

theorem map_written_expr (ts : List Ty) : (ts.map written).map (·.2) = ts.map expr :=
  List.map_map ..

theorem map_genericItems {α β : Type} (f : α → β) (base : Ty) (ellipsis : α) (params : List α) :
    (genericItems base ellipsis params).map f = genericItems base (f ellipsis) (params.map f) := by
  match params with
  | [] => rfl
  | [single] =>
      simp only [genericItems, List.map_cons, List.map_nil]
      split <;> rfl
  | _ :: _ :: _ => rfl

theorem mem_genericItems {α : Type} {base : Ty} {ellipsis item : α} {params : List α}
    (h : item ∈ genericItems base ellipsis params) : item ∈ params ∨ item = ellipsis := by
  match params with
  | [] => exact .inl h
  | [single] =>
      simp only [genericItems] at h
      split at h
      · simpa using h
      · exact .inl h
  | _ :: _ :: _ => exact .inl h

theorem genericItems_ne_nil {α : Type} {base : Ty} {ellipsis : α} {params : List α}
    (h : params ≠ []) : genericItems base ellipsis params ≠ [] := by
  match params with
  | [] => exact h
  | [single] =>
      simp only [genericItems]
      split <;> simp
  | _ :: _ :: _ => simp [genericItems]

theorem dottedName_word {first : Char} {rest : Text} (hf : Text.isIdentStart first = true)
    (hr : rest.all Text.isIdentChar = true) (hk : TokenKind.ofWord (first :: rest) = .ident) :
    DottedName (first :: rest) :=
  .single (.word hf (List.all_eq_true.mp hr) hk)

theorem dottedName_union : DottedName "Union" := @dottedName_word 'U' _ rfl rfl rfl

theorem dottedName_optional : DottedName "Optional" := @dottedName_word 'O' _ rfl rfl rfl

theorem typed_union (hasNone : Bool) {parts : List (Text × Expr)}
    (h : ∀ part ∈ parts, Typed part.1 part.2) (hne : parts ≠ []) :
    Typed (unionText hasNone (parts.map (·.1))) (unionExpr hasNone (parts.map (·.2))) := by
  have hunion := typed_subscript h dottedName_union hne
  have houter : Typed ("Optional" ++ bracketed ["Union" ++ bracketed (parts.map (·.1))])
      (.subscript (.name "Optional") [.subscript (.name "Union") (parts.map (·.2))]) :=
    @typed_subscript [(_, _)] (by simpa using hunion) _ dottedName_optional (by simp)
  cases hasNone with
  | false => exact hunion
  | true =>
      rcases parts with _ | ⟨single, _ | ⟨second, rest⟩⟩
      · exact absurd rfl hne
      · exact typed_subscript h dottedName_optional hne
      · exact houter

-- Two members that are None would be the same.
theorem others_ne_nil {members : List Ty} (h : (Ty.union members).Canonical) :
    members.filter (!·.isNone) ≠ [] := by
  obtain ⟨hlen, -, hdistinct⟩ := h.normal
  intro hnil
  rcases members with _ | ⟨first, _ | ⟨second, rest⟩⟩
  · simp at hlen
  · simp at hlen
  · have hall : ∀ t ∈ first :: second :: rest, t = .named "NoneType" := fun t ht =>
      Ty.isNone_iff.mp (by simpa using List.filter_eq_nil_iff.mp hnil t ht)
    have hne := List.rel_of_pairwise_cons hdistinct (show second ∈ second :: rest by simp)
    rw [hall first (by simp), hall second (by simp)] at hne
    exact absurd hne (by decide)

section

variable {names : Names}

mutual

-- The cases are those of the text; None is only written where it is not a member of a union.
theorem typed_type : ∀ t : Ty, t.Canonical → t.ReadsBack names → Typed (typeText t) (expr t)
  | .named _, _, h | .anything, _, h | .nothing, _, h | .parameter _, _, h => typed_name h.1
  | .generic base params, hc, h => by
      have hparts := typed_types params hc.of_generic h.2
      have hitems : ∀ part ∈ genericItems base (("..." : Text), .ellipsis) (params.map written),
          Typed part.1 part.2 := by
        intro part hm
        rcases mem_genericItems hm with hm | rfl
        · exact hparts part hm
        · exact typed_ellipsis
      have hne : params.map written ≠ [] := by simpa using hc.normal.2.1
      have htyped := typed_subscript hitems h.1.1 (genericItems_ne_nil hne)
      rw [map_genericItems, map_genericItems, map_written_text, map_written_expr] at htyped
      rw [typeText, generic_text, types_text, expr, exprs_eq]
      exact htyped
  | .tuple base params, hc, h => by
      have hne : params.map written ≠ [] := by simpa using hc.normal.2
      have htyped := typed_subscript (typed_types params hc.of_tuple h.2) h.1.1 hne
      rw [map_written_text, map_written_expr] at htyped
      rw [typeText, tuple_text, types_text, expr, exprs_eq]
      exact htyped
  | .callable base args result, hc, h => by
      have hargs := typed_list (typed_types args hc.of_callable.1 h.2.2.1)
      have hresult := typed_type result hc.of_callable.2 h.2.2.2
      rw [map_written_text, map_written_expr] at hargs
      rw [typeText, callable_text, types_text, type_text, expr, exprs_eq]
      have hboth : ∀ part ∈ [(bracketed (args.map typeText), .list (args.map expr)), written result],
          Typed part.1 part.2 := by
        intro part hm
        simp only [List.mem_cons, List.not_mem_nil, or_false] at hm
        rcases hm with rfl | rfl
        · exact hargs
        · exact hresult
      exact typed_subscript hboth h.1.1 (by simp)
  | .union members, hc, h => by
      have hparts := typed_types members hc.of_union h.2.2
      have hothers : ∀ part ∈ (members.filter (!·.isNone)).map written, Typed part.1 part.2 := by
        intro part hm
        obtain ⟨t, ht, rfl⟩ := List.mem_map.mp hm
        exact hparts _ (List.mem_map_of_mem (List.mem_filter.mp ht).1)
      have htyped := typed_union (members.any Ty.isNone) hothers
        (by simpa using others_ne_nil hc)
      rw [map_written_text, map_written_expr] at htyped
      rw [typeText, union_text, unionMembers_text, expr, memberExprs_eq]
      exact htyped

theorem typed_types : ∀ ts : List Ty, (∀ t ∈ ts, t.Canonical) → Ty.AllReadBack names ts →
    ∀ part ∈ ts.map written, Typed part.1 part.2
  | [], _, _ => by simp
  | t :: rest, hc, h => by
      have hfirst := typed_type t (hc t (by simp)) h.1
      have hrest := typed_types rest (fun t ht => hc t (by simp [ht])) h.2
      rw [List.map_cons]
      intro part hm
      rcases List.mem_cons.mp hm with rfl | hm
      · exact hfirst
      · exact hrest part hm

end

end

-- A type as it is written begins with a name, and all else of it is in brackets.
structure Begins (text : Text) (e : Expr) (name : Text) : Prop where
  dotted : DottedName name
  rest : text = name ∧ e = .name name ∨ ∃ (texts : List Text) (elements : List Expr),
    text = name ++ bracketed texts ∧ e = .subscript (.name name) elements ∧
      ∀ text ∈ texts, Spells Delimited text (spell text)

section

variable {text name : Text} {e : Expr}

theorem Begins.heads (h : Begins text e name) : e.Heads (spell text) := by
  obtain ⟨rfl, rfl⟩ | ⟨texts, elements, rfl, rfl, htexts⟩ := h.rest
  · exact heads_name h.dotted
  · exact heads_subscript h.dotted htexts elements

theorem Begins.plain (h : Begins text e name) : ∃ c rest, text = c :: rest ∧ c ≠ '=' := by
  have hname : ∃ c rest, name = c :: rest ∧ c ≠ '=' := by
    have hword : ∀ {word : Text}, Identifier word → ∃ c rest, word = c :: rest ∧ c ≠ '=' := by
      intro word hw
      cases hw with
      | @word first letters hf _ _ =>
          refine ⟨first, letters, rfl, ?_⟩
          rintro rfl
          exact absurd hf (by decide)
      | quoted => exact ⟨_, _, rfl, by decide⟩
    cases h.dotted with
    | single hn => exact hword hn
    | cons hn _ =>
        obtain ⟨c, rest, rfl, hc⟩ := hword hn
        exact ⟨c, _, rfl, hc⟩
  obtain ⟨c, rest, hcons, hc⟩ := hname
  obtain ⟨rfl, -⟩ | ⟨texts, -, rfl, -, -⟩ := h.rest
  · exact ⟨c, rest, hcons, hc⟩
  · exact ⟨c, rest ++ bracketed texts, by rw [hcons]; rfl, hc⟩

theorem Begins.isEllipsis (h : Begins text e name) : isEllipsis e = false := by
  obtain ⟨-, rfl⟩ | ⟨texts, elements, -, rfl, -⟩ := h.rest <;> rfl

end

theorem begins_union (hasNone : Bool) {parts : List (Text × Expr)}
    (h : ∀ part ∈ parts, Typed part.1 part.2) (hne : parts ≠ []) :
    ∃ name, Begins (unionText hasNone (parts.map (·.1))) (unionExpr hasNone (parts.map (·.2)))
      name := by
  have hspells : ∀ text ∈ parts.map (·.1), Spells Delimited text (spell text) := by
    intro text ht
    obtain ⟨part, hp, rfl⟩ := List.mem_map.mp ht
    exact (h part hp).spells
  cases hasNone with
  | false => exact ⟨"Union", dottedName_union, .inr ⟨_, _, rfl, rfl, hspells⟩⟩
  | true =>
      rcases parts with _ | ⟨single, _ | ⟨second, rest⟩⟩
      · exact absurd rfl hne
      · exact ⟨"Optional", dottedName_optional, .inr ⟨_, _, rfl, rfl, hspells⟩⟩
      · have hunion := (typed_union false h hne).spells
        refine ⟨"Optional", dottedName_optional, .inr ⟨_, _, rfl, rfl, fun text ht => ?_⟩⟩
        rw [List.mem_singleton.mp ht]
        exact hunion

section

variable {names : Names}

theorem begins_type {t : Ty} (hc : t.Canonical) (h : t.ReadsBack names) :
    ∃ name, Begins (typeText t) (expr t) name := by
  have hspells : ∀ {ts : List Ty}, (∀ t ∈ ts, t.Canonical) → Ty.AllReadBack names ts →
      ∀ text ∈ ts.map typeText, Spells Delimited text (spell text) := by
    intro ts hcs hs text ht
    obtain ⟨t, hm, rfl⟩ := List.mem_map.mp ht
    exact (typed_types ts hcs hs (written t) (List.mem_map_of_mem hm)).spells
  cases t with
  | named | anything | nothing | parameter => exact ⟨_, h.1, .inl ⟨rfl, rfl⟩⟩
  | generic base params =>
      have htext : typeText (.generic base params) =
          baseText base ++ bracketed (genericItems base "..." (params.map typeText)) := by
        rw [typeText, generic_text, types_text]
        rfl
      refine ⟨baseText base, h.1.1, .inr ⟨_, _, htext, rfl, fun text ht => ?_⟩⟩
      rcases mem_genericItems ht with ht | rfl
      · exact hspells hc.of_generic h.2 text ht
      · exact typed_ellipsis.spells
  | tuple base params =>
      have htext : typeText (.tuple base params) =
          baseText base ++ bracketed (params.map typeText) := by
        rw [typeText, tuple_text, types_text]
        rfl
      exact ⟨baseText base, h.1.1, .inr ⟨_, _, htext, rfl, hspells hc.of_tuple h.2⟩⟩
  | callable base args result =>
      have htext : typeText (.callable base args result) =
          baseText base ++ bracketed [bracketed (args.map typeText), typeText result] := by
        rw [typeText, callable_text, types_text, type_text]
        rfl
      have hlist := typed_list (typed_types args hc.of_callable.1 h.2.2.1)
      rw [map_written_text] at hlist
      have hresult := typed_type result hc.of_callable.2 h.2.2.2
      refine ⟨baseText base, h.1.1, .inr ⟨_, _, htext, rfl, fun text ht => ?_⟩⟩
      rcases List.mem_pair.mp ht with rfl | rfl
      · exact hlist.spells
      · exact hresult.spells
  | union members =>
      have hparts := typed_types members hc.of_union h.2.2
      have hothers : ∀ part ∈ (members.filter (!·.isNone)).map written, Typed part.1 part.2 := by
        intro part hm
        obtain ⟨t, ht, rfl⟩ := List.mem_map.mp hm
        exact hparts _ (List.mem_map_of_mem (List.mem_filter.mp ht).1)
      have hbegins := begins_union (members.any Ty.isNone) hothers
        (by simpa using others_ne_nil hc)
      rw [map_written_text, map_written_expr] at hbegins
      rw [typeText, union_text, unionMembers_text, expr, memberExprs_eq]
      exact hbegins

theorem readableAt_type {budget : Nat} {t : Ty} (hc : t.Canonical) (h : t.ReadsBack names)
    (hn : (expr t).nesting ≤ budget) : ReadableAt budget (written t) := by
  obtain ⟨name, hbegins⟩ := begins_type hc h
  exact ⟨typed_type t hc h, hbegins.heads, hbegins.plain, hn⟩

end

end TypeStub.Print
