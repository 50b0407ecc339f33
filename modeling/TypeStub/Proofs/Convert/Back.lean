import TypeStub.Proofs.Ensures
import TypeStub.Proofs.Print.Typed
import TypeStub.Convert

namespace TypeStub.Convert

open Print

variable {names : Names} {records : Records}

theorem isEllipsis_expr (t : Ty) : isEllipsis (expr t) = false := by
  cases t with
  | union members =>
      obtain ⟨word, elements, he⟩ := unionExpr_subscript (members.any Ty.isNone)
        (memberExprs members)
      rw [expr, he]
      rfl
  | _ => rfl

-- An ellipsis may only be the last of two, or more, elements.
theorem gives_checkEllipses {elements : List Expr}
    (h : ∀ element ∈ elements.dropLast, isEllipsis element = false) :
    Gives records (checkEllipses elements) () := by
  have hall : ¬(elements.length = 2 ∧ elements.all isEllipsis = true) := by
    rintro ⟨hl, ha⟩
    match elements, hl with
    | [first, second], _ =>
        have hfirst := h first (by simp)
        rw [List.all_cons, hfirst] at ha
        simp at ha
  have hany : elements.dropLast.any isEllipsis = false := by
    rw [List.any_eq_false]
    intro element hm
    simp [h element hm]
  unfold checkEllipses
  rw [if_neg hall, hany]
  exact .bind (.pure _ _) (.pure _ _)

theorem isNamed_options {t : Ty} (hc : t.Canonical) :
    t.isNamed "typing.Union" = false ∧ t.isNamed "typing.Optional" = false := by
  refine ⟨?_, ?_⟩ <;> rw [Bool.eq_false_iff] <;> intro hn <;> obtain rfl := Ty.isNamed_iff.mp hn
  · exact hc.normal.1 rfl
  · exact hc.normal.2 rfl

theorem gives_nameType {id : Text} {t : Ty} (h : names.resolve id = t) (hc : t.Canonical) :
    Gives records (nameType names id) t := by
  unfold nameType
  simp only [h, isNamed_options hc]
  exact .pure _ _

theorem gives_parametrized {id : Text} {base : Ty} {elements : List Expr} {params : List Ty}
    (hr : names.resolve id = base) (hc : base.isNamed "typing.Callable" = false)
    (hb : base.Canonical) (he : ∀ element ∈ elements.dropLast, isEllipsis element = false)
    (ht : Gives records (types names elements) params) :
    Gives records (Convert.type names (.subscript (.name id) elements))
      (parametrized base elements params) := by
  rw [Convert.type]
  simp only [hr, hc, isNamed_options hb]
  exact .bind (gives_checkEllipses he) (.bind ht (.pure _ _))

theorem isEllipsis_of_mem_exprs {ts : List Ty} {element : Expr} (h : element ∈ exprs ts) :
    isEllipsis element = false := by
  rw [exprs_eq] at h
  obtain ⟨t, -, rfl⟩ := List.mem_map.mp h
  exact isEllipsis_expr t

theorem parametrized_exprs (base : Ty) (ts params : List Ty) :
    parametrized base (exprs ts) params =
      if base.isNamed "tuple" then .tuple base params else .generic base params := by
  have hlast : (exprs ts).getLast?.any isEllipsis = false := by
    cases hl : (exprs ts).getLast? with
    | none => rfl
    | some element => exact isEllipsis_of_mem_exprs (List.mem_of_getLast? hl)
  unfold parametrized
  rw [hlast]
  rfl

section

variable {id : Text} {elements : List Expr} {types : List Ty}

theorem gives_union (hr : names.resolve id = .named "typing.Union")
    (ht : Gives records (Convert.types names elements) types) :
    Gives records (Convert.type names (.subscript (.name id) elements)) (.unionOf types) := by
  rw [Convert.type]
  simp only [hr]
  exact .bind ht (.pure _ _)

theorem gives_optional (hr : names.resolve id = .named "typing.Optional")
    (ht : Gives records (Convert.types names elements) types) :
    Gives records (Convert.type names (.subscript (.name id) elements))
      (.unionOf (types ++ [.named "NoneType"])) := by
  rw [Convert.type]
  simp only [hr]
  exact .bind ht (.pure _ _)

theorem gives_subscript {base t : Ty} (hr : names.resolve id = base)
    (hc : base.isNamed "typing.Callable" = true)
    (h : Gives records (callable names base elements) t) :
    Gives records (Convert.type names (.subscript (.name id) elements)) t := by
  rw [Convert.type]
  simp only [hr, hc]
  exact h

end

theorem gives_openCallable (base : Ty) {result : Ty} {expression : Expr}
    (hany : Ty.anything.ReadsBack names)
    (hr : Gives records (Convert.type names expression) result) :
    Gives records (callable names base [expr .anything, expression])
      (.generic base [.anything, result]) := by
  have hargument : Gives records (Convert.type names (expr .anything)) .anything :=
    gives_nameType hany.2 Ty.canonical_anything
  show Gives records (callable names base [.name (typeText .anything), expression]) _
  rw [Convert.callable]
  · exact .bind hr (.bind hargument (.pure _ _))
  · simp

-- A type that is read from a name is what the name stands for.
theorem resolve_of_expr {t : Ty} {id : Text} (h : t.ReadsBack names) (he : expr t = .name id) :
    names.resolve id = t := by
  cases t with
  | union members =>
      obtain ⟨word, elements, hu⟩ := unionExpr_subscript (members.any Ty.isNone)
        (memberExprs members)
      rw [expr, hu] at he
      exact absurd he (by simp)
  | generic | tuple | callable => simp [expr] at he
  | _ =>
      rw [← Expr.name.inj he]
      exact h.2

theorem isNoArguments_exprs {args : List Ty} (h : Ty.AllReadBack names args)
    (hne : args ≠ [.nothing]) : isNoArguments (exprs args) = false := by
  rcases args with _ | ⟨t, _ | ⟨second, rest⟩⟩
  · rfl
  · show isNoArguments [expr t] = false
    cases he : expr t with
    | ellipsis => exact absurd (isEllipsis_expr t) (by rw [he]; simp [isEllipsis])
    | name id =>
        refine Bool.eq_false_iff.mpr fun hid => hne ?_
        rw [eq_of_beq hid] at he
        rw [← resolve_of_expr h.1 he]
        rfl
    | _ => rfl
  · show isNoArguments (expr t :: expr second :: exprs rest) = false
    cases expr t <;> rfl

theorem resolve_union {members : List Ty} (h : (Ty.union members).ReadsBack names)
    (hm : ("Union" : Text) ∈ unionWords members) :
    names.resolve "Union" = .named "typing.Union" := by
  have hname : ("typing." : Text) ++ "Union" = "typing.Union" := by decide
  rw [h.1 _ hm, hname]

theorem resolve_optional {members : List Ty} (h : (Ty.union members).ReadsBack names)
    (hm : ("Optional" : Text) ∈ unionWords members) :
    names.resolve "Optional" = .named "typing.Optional" := by
  have hname : ("typing." : Text) ++ "Optional" = "typing.Optional" := by decide
  rw [h.1 _ hm, hname]

-- A union is named, or optional, or both, and either way it has the members that it had.
theorem gives_unionExpr {members : List Ty} (hc : (Ty.union members).Canonical)
    (h : (Ty.union members).ReadsBack names)
    (hm : Gives records (types names (memberExprs members)) (Ty.others members)) :
    Gives records (Convert.type names (unionExpr (members.any Ty.isNone) (memberExprs members)))
      (Ty.union members).noneLast := by
  obtain ⟨hdistinct, hleaf, hlen⟩ := Ty.others_facts hc h.2.1
  rw [Ty.filter_isNone hc.nodup] at hdistinct hleaf hlen
  rw [Ty.noneLast_union, Ty.filter_isNone hc.nodup]
  cases hany : members.any Ty.isNone with
  | false =>
      have hunion := resolve_union h (union_mem_unionWords hany)
      rw [hany, if_neg (by simp)] at hdistinct hleaf hlen
      rw [if_neg (by simp)]
      have hback := gives_union hunion hm
      rw [List.append_nil] at *
      rwa [Ty.unionOf_leaves (Ty.leavesAll_of_isLeaf hleaf) hdistinct hlen] at hback
  | true =>
      obtain ⟨hoptional, hunion⟩ := optional_mem_unionWords hany
      rw [hany, if_pos rfl] at hdistinct hleaf hlen
      rw [if_pos rfl]
      have hone := Ty.unionOf_leaves (Ty.leavesAll_of_isLeaf hleaf) hdistinct hlen
      have hinner := gives_optional (resolve_optional h hoptional) hm
      rw [hone] at hinner
      have hlength : (memberExprs members).length = (Ty.others members).length := by
        rw [memberExprs_eq, Ty.others, List.length_map, List.length_map]
      rcases he : memberExprs members with _ | ⟨single, _ | ⟨second, rest⟩⟩
      · rw [List.length_append, ← hlength, he] at hlen
        exact absurd hlen (by decide)
      · rwa [he] at hinner
      · have hmany : 2 ≤ (Ty.others members).length := by
          rw [← hlength, he]
          exact Nat.le_add_left ..
        have hne : (members.filter (!·.isNone)).length ≠ 1 := by
          rw [Ty.others, List.length_map] at hmany
          exact Nat.ne_of_gt hmany
        rw [he] at hm
        have hothers := Ty.leavesAll_of_isLeaf fun t ht => hleaf t (List.mem_append_left _ ht)
        have hnamed := gives_union (resolve_union h (hunion hne)) hm
        rw [Ty.unionOf_leaves hothers (List.nodup_append.mp hdistinct).1 hmany] at hnamed
        have htypes : Gives records (types names [.subscript (.name "Union") _])
            [Ty.union (Ty.others members)] := .bind hnamed (.bind (.pure _ _) (.pure _ _))
        have hback := gives_optional (resolve_optional h hoptional) htypes
        have hleaves : Ty.leavesAll ([Ty.union (Ty.others members)] ++ [.named "NoneType"]) =
            Ty.others members ++ [.named "NoneType"] := by
          show Ty.leavesAll (Ty.others members) ++ ([.named "NoneType"] ++ []) = _
          rw [hothers, List.append_nil]
        rwa [Ty.unionOf_leaves hleaves hdistinct hlen] at hback

section

mutual

-- What is read from the text of a type that reads back is the type, with None last.
theorem gives_type : ∀ t : Ty, t.Canonical → t.ReadsBack names →
    Gives records (Convert.type names (expr t)) t.noneLast
  | .named _, hc, h | .anything, hc, h | .nothing, hc, h | .parameter _, hc, h =>
      gives_nameType h.2 hc
  | .generic base params, hc, h => by
      have hparams := gives_types params hc.of_generic h.2
      obtain ⟨-, -, htuple, hcallable⟩ := hc.normal
      cases hcall : base.isNamed "typing.Callable" with
      | true =>
          obtain ⟨result, rfl⟩ := hcallable (Ty.isNamed_iff.mp hcall)
          obtain ⟨hany, hresult, -⟩ := h.2
          have hback := gives_openCallable base hany
            (gives_type result (hc.of_generic _ (by simp)) hresult)
          exact gives_subscript h.1.2 hcall hback
      | false =>
          cases ht : base.isNamed "tuple" with
          | true =>
              obtain ⟨single, rfl⟩ := List.length_eq_one_iff.mp (htuple (Ty.isNamed_iff.mp ht))
              have hitems : genericItems base .ellipsis (exprs [single]) =
                  [expr single, .ellipsis] := if_pos ht
              rw [expr, hitems]
              have hfirst := gives_type single (hc.of_generic single (by simp)) h.2.1
              have htypes : Gives records (Convert.types names [expr single, .ellipsis])
                  [single.noneLast, .anything] :=
                .bind hfirst (.bind (.bind (.pure _ _) (.bind (.pure _ _) (.pure _ _))) (.pure _ _))
              have hback := gives_parametrized h.1.2 hcall hc.of_generic_base
                (by simp [isEllipsis_expr]) htypes
              exact hback
          | false =>
              have hitems : genericItems base .ellipsis (exprs params) = exprs params := by
                unfold genericItems
                split
                · rw [if_neg (Bool.eq_false_iff.mp ht), ‹exprs params = _›]
                · rfl
              rw [expr, hitems]
              have hback := gives_parametrized h.1.2 hcall hc.of_generic_base
                (fun _ hm => isEllipsis_of_mem_exprs (List.dropLast_subset _ hm)) hparams
              rw [parametrized_exprs, ht] at hback
              exact hback
  | .tuple base params, hc, h => by
      obtain ⟨rfl, hne⟩ := hc.normal
      have hback := gives_parametrized h.1.2 rfl hc.of_tuple_base
        (fun _ hm => isEllipsis_of_mem_exprs (List.dropLast_subset _ hm))
        (gives_types params hc.of_tuple h.2)
      rwa [parametrized_exprs] at hback
  | .callable base args result, hc, h => by
      obtain ⟨hbase, hne, hargs, hresult⟩ := h
      have hno : isNoArguments (exprs args) = false := isNoArguments_exprs hargs hne
      refine gives_subscript hbase.2 (Ty.isNamed_iff.mpr hc.normal) ?_
      refine .bind (gives_type result hc.of_callable.2 hresult) (.ite (fun hn => ?_) fun _ => ?_)
      · exact absurd hn (by simp [hno])
      · exact .bind (gives_types args hc.of_callable.1 hargs) (.pure _ _)
  | .union members, hc, h => by
      rw [expr]
      exact gives_unionExpr hc h (gives_members members hc.of_union h.2.2)

theorem gives_types : ∀ ts : List Ty, (∀ t ∈ ts, t.Canonical) → Ty.AllReadBack names ts →
    Gives records (types names (exprs ts)) (Ty.noneLastAll ts)
  | [], _, _ => .pure _ _
  | t :: rest, hc, h =>
      .bind (gives_type t (hc t (by simp)) h.1)
        (.bind (gives_types rest (fun t ht => hc t (by simp [ht])) h.2) (.pure _ _))

theorem gives_members : ∀ ts : List Ty, (∀ t ∈ ts, t.Canonical) → Ty.AllReadBack names ts →
    Gives records (types names (memberExprs ts)) ((ts.filter (!·.isNone)).map Ty.noneLast)
  | [], _, _ => .pure _ _
  | t :: rest, hc, h => by
      have hfirst := gives_type t (hc t (by simp)) h.1
      have hrest := gives_members rest (fun t ht => hc t (by simp [ht])) h.2
      rw [memberExprs, List.filter_cons]
      cases t.isNone with
      | true => exact hrest
      | false => exact .bind hfirst (.bind hrest (.pure _ _))

end

end

end TypeStub.Convert
