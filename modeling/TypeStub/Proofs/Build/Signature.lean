import TypeStub.Build
import TypeStub.Proofs.Convert.Closed
import TypeStub.Proofs.Module.Types

namespace TypeStub

-- A definition whose signature, if it has one, keeps the property.
structure Definition.Shaped (P : Ty → Prop) (d : Definition) : Prop where
  name : Identifier d.name
  signature : ∀ s ∈ d.signature?, s.Shaped ∧ ∀ type ∈ s.types, P type

namespace Build

-- A property of types that every stub keeps whose names are of a certain kind.
structure Kept (N : Names → Prop) (P : Ty → Prop) : Prop where
  converted : ∀ names, N names → Convert.Closed names P
  imported : ∀ names localName module name, SourceModule module → Identifier name → N names →
    N (names.addImport localName (module ++ '.' :: name))
  member : ∀ module name, SourceModule module → Identifier name → module ≠ "typing" →
    P (.named (module ++ '.' :: name))
  plain : ∀ name : Text,
    name ∈ List.map String.toList ["object", "int", "float", "bool", "tuple", "dict"] →
    P (.named name)
  anything : P .anything
  optional : ∀ type, P type → P (.unionOf [type, .named "NoneType"])
  starred : ∀ type, P type → P (.generic (.named "tuple") [type])
  keyed : ∀ type, P type → P (.generic (.named "dict") [.named "str", type])

def Admissible (N : Names → Prop) (P : Ty → Prop) (state : BuildState) : Prop :=
  N state.names ∧ Convert.Holds P state.records

section

variable {N : Names → Prop} {P : Ty → Prop}

theorem ensures_typeAt (hk : Kept N P) (line : Int32) {e : Expr} (he : e.IsType) :
    Ensures (Admissible N P) (typeAt line e) P := by
  intro state type state' hs h
  simp only [typeAt] at h
  split at h
  · rename_i t records hc
    obtain ⟨rfl, rfl⟩ := (EStateM.Result.ok.injEq ..).mp h
    obtain ⟨ht, hr⟩ := Convert.ensures_type (hk.converted _ hs.1) e he hs.2 hc
    exact ⟨ht, hs.1, hr⟩
  · simp at h

theorem plain_defaultType (hk : Kept N P) (value : Expr) : P (defaultType value) := by
  cases value <;> exact hk.plain _ (by simp)

theorem ensures_paramType (hk : Kept N P) (line : Int32) {hint default : Option Expr}
    (hh : ∀ e ∈ hint, e.IsType) : Ensures (Admissible N P) (paramType line hint default) P := by
  cases hint with
  | none =>
      refine .pure ?_
      cases default with
      | none => exact hk.plain _ (by simp)
      | some value => exact plain_defaultType hk value
  | some hint =>
      refine .bind (ensures_typeAt hk line (hh hint rfl)) fun declared hd => ?_
      exact .ite (fun _ => .pure (hk.optional declared hd)) fun _ => .pure hd

theorem ensures_starType (hk : Kept N P) (line : Int32) {hint : Option Expr}
    (hh : ∀ e ∈ hint, e.IsType) :
    Ensures (Admissible N P) (starType line hint) fun type =>
      P type ∧ IsStarType "tuple" [] type := by
  cases hint with
  | none => exact .pure ⟨hk.plain _ (by simp), .inl rfl⟩
  | some hint =>
      refine .bind (ensures_typeAt hk line (hh hint rfl)) fun type ht => .pure ?_
      exact ⟨hk.starred type ht, .inr ⟨type, rfl⟩⟩

theorem ensures_doubleStarType (hk : Kept N P) (line : Int32) {hint : Option Expr}
    (hh : ∀ e ∈ hint, e.IsType) :
    Ensures (Admissible N P) (doubleStarType line hint) fun type =>
      P type ∧ IsStarType "dict" [.named "str"] type := by
  cases hint with
  | none => exact .pure ⟨hk.plain _ (by simp), .inl rfl⟩
  | some hint =>
      refine .bind (ensures_typeAt hk line (hh hint rfl)) fun type ht => .pure ?_
      exact ⟨hk.keyed type ht, .inr ⟨type, rfl⟩⟩

-- What holds of the parameters read so far. Those after a star are the keyword-only ones.
structure ParamScan.Shaped (P : Ty → Prop) (scan : ParamScan) : Prop where
  names : ∀ p ∈ scan.params, Identifier p.name ∧ P p.type
  keywordsLast : ∃ plain others, scan.params = plain ++ others ∧
    (∀ p ∈ plain, p.keywordOnly = false) ∧ (∀ p ∈ others, p.keywordOnly = true) ∧
    (scan.sawStar = false → others = [])
  star : ∀ p ∈ scan.starArgs, p.IsStar "tuple" [] ∧ P p.type
  doubleStar : ∀ p ∈ scan.starStarArgs, p.IsStar "dict" [.named "str"] ∧ P p.type

theorem ParamScan.shaped_start : ParamScan.start.Shaped P where
  names := by simp [ParamScan.start]
  keywordsLast := ⟨[], [], by simp [ParamScan.start]⟩
  star := by simp [ParamScan.start]
  doubleStar := by simp [ParamScan.start]

theorem ParamScan.Shaped.addOrdinary {scan : ParamScan} (h : scan.Shaped P) {name : Text}
    {type : Ty} {isOptional : Bool} (hn : Identifier name) (ht : P type) :
    ParamScan.Shaped P
      { scan with params := scan.params ++ [⟨name, type, isOptional, scan.sawStar⟩] } where
  names := by
    intro p hp
    rcases List.mem_append.mp hp with hp | hp
    · exact h.names p hp
    · simp only [List.mem_singleton] at hp
      subst hp
      exact ⟨hn, ht⟩
  keywordsLast := by
    obtain ⟨plain, others, hsplit, hplain, hothers, hnone⟩ := h.keywordsLast
    cases hs : scan.sawStar with
    | false =>
        obtain rfl := hnone hs
        refine ⟨plain ++ [⟨name, type, isOptional, false⟩], [], by simp [hsplit], ?_, by simp⟩
        simpa [or_imp, forall_and] using hplain
    | true =>
        refine ⟨plain, others ++ [⟨name, type, isOptional, true⟩], by simp [hsplit], hplain, ?_⟩
        simpa [or_imp, forall_and] using hothers
  star := h.star
  doubleStar := h.doubleStar

theorem ParamScan.Shaped.sawStar {scan : ParamScan} (h : scan.Shaped P) (bare : Bool) :
    ParamScan.Shaped P { scan with sawStar := true, bareStar := bare } where
  names := h.names
  keywordsLast := by
    obtain ⟨plain, others, hsplit, hplain, hothers, -⟩ := h.keywordsLast
    exact ⟨plain, others, hsplit, hplain, hothers, by simp⟩
  star := h.star
  doubleStar := h.doubleStar

theorem identifier_args : Identifier "args" :=
  .word (by decide) (List.all_eq_true.mp (by decide)) (by decide)

theorem identifier_kwargs : Identifier "kwargs" :=
  .word (by decide) (List.all_eq_true.mp (by decide)) (by decide)

theorem isStar_plainParameter {container name : Text} {given : List Ty} {type : Ty}
    (hn : Identifier name) (ht : IsStarType container given type) :
    (plainParameter name type).IsStar container given := ⟨hn, rfl, rfl, ht⟩

theorem ParamScan.Shaped.addEllipsis (hk : Kept N P) {scan : ParamScan} (h : scan.Shaped P) :
    ParamScan.Shaped P { scan with
      sawEllipsis := true
      starArgs := scan.starArgs.or (some (plainParameter "args" (.named "tuple")))
      starStarArgs := scan.starStarArgs.or (some (plainParameter "kwargs" (.named "dict"))) } where
  names := h.names
  keywordsLast := h.keywordsLast
  star := by
    intro p hp
    cases hs : scan.starArgs with
    | none =>
        obtain rfl : plainParameter "args" (.named "tuple") = p := by simpa [hs] using hp
        exact ⟨isStar_plainParameter identifier_args (.inl rfl), hk.plain _ (by simp)⟩
    | some star => exact h.star p (by simpa [hs] using hp)
  doubleStar := by
    intro p hp
    cases hs : scan.starStarArgs with
    | none =>
        obtain rfl : plainParameter "kwargs" (.named "dict") = p := by simpa [hs] using hp
        exact ⟨isStar_plainParameter identifier_kwargs (.inl rfl),
          hk.plain _ (by simp)⟩
    | some star => exact h.doubleStar p (by simpa [hs] using hp)

theorem ensures_fault {α : Type} {inv : BuildState → Prop} {Q : α → Prop} (line : Int32)
    (cause : Cause) : Ensures inv (fault line cause : Build α) Q := .throw

theorem ensures_fault_bind {α β : Type} {inv : BuildState → Prop} {Q : α → Prop} (line : Int32)
    (cause : Cause) {f : β → Build α} : Ensures inv ((fault line cause : Build β) >>= f) Q :=
  .throw_bind

theorem ensures_addParam (hk : Kept N P) (line : Int32) {scan : ParamScan} (hs : scan.Shaped P)
    {param : Param} (hp : param.IsWritten) :
    Ensures (Admissible N P) (addParam line scan param) (ParamScan.Shaped P) := by
  unfold addParam
  dsimp only
  split
  · exact ensures_fault_bind _ _
  · refine .ite (fun _ => ensures_fault_bind _ _) fun _ => ?_
    cases param with
    | ordinary name hint default =>
        exact .bind (ensures_paramType hk line hp.2) fun type ht => .pure (hs.addOrdinary hp.1 ht)
    | bareStar =>
        exact .ite (fun _ => ensures_fault_bind _ _) fun _ => .pure (hs.sawStar true)
    | star name hint =>
        refine .ite (fun _ => ensures_fault_bind _ _) fun _ => ?_
        refine .bind (ensures_starType hk line hp.2) fun type ht => .pure ?_
        exact { (hs.sawStar scan.bareStar) with
          star := by simpa using ⟨isStar_plainParameter hp.1 ht.2, ht.1⟩ }
    | doubleStar name hint =>
        refine .bind (ensures_doubleStarType hk line hp.2) fun type ht => .pure ?_
        exact { names := hs.names, keywordsLast := hs.keywordsLast, star := hs.star
                doubleStar := by simpa using ⟨isStar_plainParameter hp.1 ht.2, ht.1⟩ }
    | ellipsis =>
        exact .ite (fun _ => ensures_fault_bind _ _) fun _ => .pure (hs.addEllipsis hk)

theorem ensures_params (hk : Kept N P) (line : Int32) {written : List Param}
    (hw : ∀ param ∈ written, param.IsWritten) :
    Ensures (Admissible N P) (params line written) (ParamScan.Shaped P) := by
  refine .bind (.foldlM ParamScan.shaped_start fun scan hs param hm =>
    ensures_addParam hk line hs (hw param hm)) fun scan hs => ?_
  exact .ite (fun _ => ensures_fault_bind _ _) fun _ => .pure hs

theorem hasParameter_iff (scan : ParamScan) (name : Text) :
    hasParameter scan name = true ↔
      ∃ p ∈ scan.params ++ scan.starArgs.toList ++ scan.starStarArgs.toList, p.name = name := by
  simp only [hasParameter, Bool.or_eq_true, List.any_eq_true, Option.any_eq_true, beq_iff_eq,
    List.mem_append, Option.mem_toList, or_and_right, exists_or]

theorem ensures_mutator (hk : Kept N P) (line : Int32) (scan : ParamScan) {written : Text × Expr}
    (hw : written.2.IsType) :
    Ensures (Admissible N P) (mutator line scan written) fun m =>
      P m.type ∧ hasParameter scan m.name = true := by
  refine .ite (fun hn => ?_) fun _ => ensures_fault_bind _ _
  exact .bind (ensures_typeAt hk line hw) fun type ht => .pure ⟨ht, hn⟩

-- A signature keeps the property and is put together as it should be.
theorem ensures_signature (hk : Kept N P) (line : Int32) {written : List Param}
    {returns : Option Expr} {raises : List Expr} {mutators : List (Text × Expr)}
    (hw : (DefBody.declared written returns raises mutators).IsWritten) :
    Ensures (Admissible N P) (signature line written returns raises mutators) fun s =>
      s.Shaped ∧ ∀ type ∈ s.types, P type := by
  obtain ⟨hp, hr, he, hm⟩ := hw
  refine .bind (ensures_params hk line hp) fun scan hscan => ?_
  have hrest : ∀ result, P result → Ensures (Admissible N P) (do
      let exceptions ← raises.mapM (typeAt line)
      let mutators ← mutators.mapM (mutator line scan)
      return (⟨scan.params, scan.starArgs, scan.starStarArgs, result, exceptions, mutators⟩ :
        Signature)) fun s => s.Shaped ∧ ∀ type ∈ s.types, P type := by
    intro result hresult
    refine .bind (.mapM fun e hin => ensures_typeAt hk line (he e hin)) fun exceptions hex => ?_
    refine .bind (.mapM fun m hin => ensures_mutator hk line scan (hm m hin)) fun muts hmut => ?_
    obtain ⟨plain, others, hsplit, hplain, hothers, -⟩ := hscan.keywordsLast
    refine .pure ⟨⟨fun p hin => (hscan.names p hin).1, ⟨plain, others, hsplit, hplain, hothers⟩,
      fun p hin => (hscan.star p hin).1, fun p hin => (hscan.doubleStar p hin).1,
      fun m hin => (hasParameter_iff scan m.name).mp (hmut m hin).2⟩, fun type hin => ?_⟩
    simp only [Signature.types, List.mem_append, List.mem_map, List.mem_singleton,
      Option.mem_toList] at hin
    rcases hin with ((((⟨p, hin, rfl⟩ | ⟨p, hin, rfl⟩) | ⟨p, hin, rfl⟩) | rfl) | hin) | ⟨m, hin, rfl⟩
    · exact (hscan.names p hin).2
    · exact (hscan.star p hin).2
    · exact (hscan.doubleStar p hin).2
    · exact hresult
    · exact hex type hin
    · exact (hmut m hin).1
  cases returns with
  | none => exact .bind (.pure hk.anything) hrest
  | some e => exact .bind (ensures_typeAt hk line (hr e rfl)) hrest

theorem ensures_definition (hk : Kept N P) (line : Int32) {d : Def} (hd : d.IsWritten) :
    Ensures (Admissible N P) (definition line d) (Definition.Shaped P) := by
  obtain ⟨hn, -, hb⟩ := hd
  have hdecorator : Ensures (Admissible N P) (decorator line d) fun _ => True := by
    unfold decorator
    split
    · exact .pure trivial
    · exact .pure trivial
    · exact ensures_fault _ _
  refine .bind hdecorator fun _ _ => ?_
  split
  · exact .pure ⟨hn, by simp⟩
  · rename_i hbody
    refine .bind (ensures_signature hk line (hbody ▸ hb)) fun s hs => .pure ⟨hn, ?_⟩
    simpa using hs

end

end Build

end TypeStub
