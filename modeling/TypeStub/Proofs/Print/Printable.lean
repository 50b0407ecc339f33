import TypeStub.Proofs.Names.Resolve
import TypeStub.Proofs.Print.Type
import TypeStub.Proofs.Text.Beginning

-- Types that can be told from their text alone.
namespace TypeStub

open Print

-- A word as it stands, neither in backticks nor reserved.
structure PlainWord (word : Text) : Prop where
  start : word.head?.any Text.isIdentStart = true
  letters : word.all Text.isIdentChar = true
  free : TokenKind.ofWord word = .ident

instance (word : Text) : Decidable (PlainWord word) :=
  decidable_of_iff (word.head?.any Text.isIdentStart = true ∧ word.all Text.isIdentChar = true ∧
      TokenKind.ofWord word = .ident)
    ⟨fun ⟨hs, hl, hf⟩ => ⟨hs, hl, hf⟩, fun h => ⟨h.start, h.letters, h.free⟩⟩

-- Such words with a dot between each and the next.
inductive PlainName : Text → Prop
  | single {word : Text} (h : PlainWord word) : PlainName word
  | cons {word rest : Text} (h : PlainWord word) (hr : PlainName rest) :
      PlainName (word ++ '.' :: rest)

theorem PlainWord.identifier {word : Text} (h : PlainWord word) : Identifier word := by
  obtain ⟨hstart, hletters, hfree⟩ := h
  cases word with
  | nil => simp at hstart
  | cons first rest =>
      rw [List.all_cons, Bool.and_eq_true] at hletters
      exact .word (by simpa using hstart) (List.all_eq_true.mp hletters.2) hfree

theorem PlainName.dotted {name : Text} (h : PlainName name) : DottedName name := by
  induction h with
  | single h => exact .single h.identifier
  | cons h _ ih => exact .cons h.identifier ih

-- A name that a stub gives to a type variable.
structure VariableName (word : Text) : Prop where
  plain : PlainWord word
  notBuiltin : Builtin.ofName? word = none
  notFixed : word ∉ fixedNames

namespace Ty

-- A type without others in it that its text tells, among type variables.
def PrintableAtom (vars : List Text) : Ty → Prop
  | anything | nothing => True
  | parameter name => name ∈ vars
  | named name =>
      name = "NoneType" ∨
      (∃ word, Builtin.ofName? word = some (.named ("typing." ++ word)) ∧ word ≠ "Union" ∧
        word ≠ "Optional" ∧ name = "typing." ++ word) ∨
      (PlainName name ∧ name ∉ vars ∧ name ∉ fixedNames ∧ Builtin.ofName? name = none ∧
        Text.after? "typing." name = none)
  | _ => False

mutual

-- A type that its text tells. A tuple of one repeated type and a callable type with open arguments
-- are generic types of their own; the one argument nothing would read as no arguments; None is
-- written last in a union.
def Printable (vars : List Text) : Ty → Prop
  | generic base params =>
      AllPrintable vars params ∧
        ((base = named "tuple" ∧ params.length = 1) ∨
          (base = named "typing.Callable" ∧ ∃ result, params = [anything, result]) ∨
          (base.PrintableAtom vars ∧ base ≠ named "tuple" ∧ base ≠ named "typing.Callable" ∧
            params ≠ []))
  | tuple base params => base = named "tuple" ∧ params ≠ [] ∧ AllPrintable vars params
  | callable base args result =>
      base = named "typing.Callable" ∧ args ≠ [nothing] ∧ AllPrintable vars args ∧
        result.Printable vars
  | union members =>
      2 ≤ members.length ∧ members.Nodup ∧
        (∀ member ∈ members, member.kind ≠ .union ∧ member.kind ≠ .nothing) ∧
        named "NoneType" ∉ members.dropLast ∧ AllPrintable vars members
  | type => type.PrintableAtom vars

def AllPrintable (vars : List Text) : List Ty → Prop
  | [] => True
  | type :: rest => type.Printable vars ∧ AllPrintable vars rest

end

end Ty

-- Names under which a text without further declarations is read: the built-in ones, type variables,
-- and imports of no other names than built-in ones.
structure Names.Standard (vars : List Text) (names : Names) : Prop where
  useBuiltins : names.useBuiltins = true
  classes : names.classes = []
  typeVars : names.typeVars = vars
  variableNames : ∀ word ∈ vars, VariableName word
  imports : ∀ pair ∈ names.imports, Builtin.ofName? pair.1 ≠ none

section

variable {vars : List Text} {names : Names}

-- The names of the typing module that stand for themselves there are plain words.
theorem plainWord_typingName : ∀ word ∈ Builtin.typingNames, PlainWord word := by decide

theorem typingName_of_builtin {word : Text}
    (h : Builtin.ofName? word = some (.named ("typing." ++ word))) :
    word ∈ Builtin.typingNames := by
  have hcontainers : ∀ pair ∈ Builtin.containers, Text.after? "typing." pair.2 = none := by decide
  unfold Builtin.ofName? at h
  split at h
  · simp at h
  · split at h
    · rename_i container hfound
      obtain rfl : container = "typing." ++ word := by simpa using h
      obtain ⟨before, after, hsplit, -⟩ := List.lookup_eq_some_iff.mp hfound
      have hnone := hcontainers (word, "typing." ++ word) (by rw [hsplit]; simp)
      rw [after?_append] at hnone
      simp at hnone
    · split at h
      · assumption
      · simp at h

theorem Names.Standard.isTypeVar_iff (h : names.Standard vars) {word : Text} :
    names.isTypeVar word = true ↔ word ∈ vars := by
  rw [Names.isTypeVar, h.typeVars, List.contains_iff_mem]

theorem Names.Standard.isClass_eq (h : names.Standard vars) (word : Text) :
    names.isClass word = false := by
  rw [Names.isClass, h.classes]
  rfl

-- A built-in word stands for its type under all of these names.
theorem Names.Standard.resolve_builtin (h : names.Standard vars) {word : Text} {builtin : Builtin}
    (hb : Builtin.ofName? word = some builtin) : names.resolve word = builtin.type := by
  have hnone : ∀ name ∈ fixedNames, Builtin.ofName? name = none := by decide
  have hfixed : word ∉ fixedNames := by
    intro hm
    rw [hnone word hm] at hb
    simp at hb
  have hvar : names.isTypeVar word = false := by
    rw [Bool.eq_false_iff, ne_eq, h.isTypeVar_iff]
    intro hm
    rw [(h.variableNames word hm).notBuiltin] at hb
    simp at hb
  rw [Names.resolve_undeclared hfixed hvar (h.isClass_eq word)]
  exact Names.elsewhere_of_builtin (by simp [Names.builtin?, h.useBuiltins, hb])

theorem Names.Standard.resolve_variable (h : names.Standard vars) {word : Text} (hw : word ∈ vars) :
    names.resolve word = .parameter word :=
  Names.resolve_variable (h.variableNames word hw).notFixed (h.isTypeVar_iff.mpr hw)

-- Any other name stands for something from elsewhere.
theorem Names.Standard.resolve_named (h : names.Standard vars) {name : Text} (hv : name ∉ vars)
    (hf : name ∉ fixedNames) (hb : Builtin.ofName? name = none)
    (ht : Text.after? "typing." name = none) : names.resolve name = .named name := by
  have hvar : names.isTypeVar name = false := by
    rw [Bool.eq_false_iff, ne_eq, h.isTypeVar_iff]
    exact hv
  have himport : names.imports.lookup name = none := by
    rw [List.lookup_eq_none_iff]
    intro pair hpair
    have hkey := h.imports pair hpair
    rw [bne_iff_ne]
    rintro rfl
    exact hkey hb
  have hbuiltin : names.builtin? name = none := by
    rw [Names.builtin?, if_pos h.useBuiltins, hb, Builtin.ofTyping?, ht]
    rfl
  rw [Names.resolve_undeclared hf hvar (h.isClass_eq name), Names.elsewhere, hbuiltin,
    Names.imported?, himport]
  rfl

namespace Ty

theorem allReadBack_iff {types : List Ty} :
    AllReadBack names types ↔ ∀ type ∈ types, type.ReadsBack names := by
  induction types with
  | nil => simp [AllReadBack]
  | cons type rest ih => simp [AllReadBack, ih]

theorem PrintableAtom.isAtom {type : Ty} (h : type.PrintableAtom vars) : type.IsAtom := by
  cases type <;> trivial

theorem PrintableAtom.canonical {type : Ty} (h : type.PrintableAtom vars) : type.Canonical := by
  cases type with
  | named name =>
      rcases h with rfl | ⟨word, -, hunion, hoptional, rfl⟩ | ⟨-, -, -, -, htyping⟩
      · exact canonical_named _ (by decide) (by decide)
      · have hword : ∀ other : Text, ("typing." ++ word : Text) = "typing." ++ other → word = other :=
          fun other he => List.append_cancel_left he
        exact canonical_named _ (fun he => hunion (hword "Union" he))
          fun he => hoptional (hword "Optional" he)
      · refine canonical_named _ ?_ ?_ <;> rintro rfl <;> exact absurd htyping (by decide)
  | anything => exact canonical_anything
  | nothing => exact canonical_nothing
  | parameter name => simp [Canonical, IsNormal]
  | _ => exact h.elim

end Ty

theorem nameType_plain {name : Text} (hn : name ≠ "NoneType")
    (ht : Text.after? "typing." name = none) : (nameType [] name).text = name := by
  unfold nameType
  rw [if_neg hn, ht]
  dsimp only
  split
  · split <;> rfl
  · rfl

-- The text of such a type stands for it.
theorem Names.Standard.reads_atom (h : names.Standard vars) {type : Ty}
    (ht : type.PrintableAtom vars) : names.Reads (typeText type) type := by
  cases type with
  | named name =>
      rcases ht with rfl | ⟨word, hword, -, -, rfl⟩ | ⟨hplain, hvar, hfixed, hbuiltin, htyping⟩
      · exact ⟨.single (by decide : PlainWord "None").identifier, rfl⟩
      · have htext : typeText (.named ("typing." ++ word)) = word := by
          show (nameType [] ("typing." ++ word)).text = word
          have hne : ("typing." ++ word : Text) ≠ "NoneType" := by
            intro he
            have hnone : Text.after? "typing." "NoneType" = none := rfl
            rw [← he, after?_append] at hnone
            simp at hnone
          rw [nameType, if_neg hne, after?_append]
          rfl
        rw [htext]
        exact ⟨.single (plainWord_typingName word (typingName_of_builtin hword)).identifier,
          h.resolve_builtin hword⟩
      · have htext : typeText (.named name) = name :=
          nameType_plain (fun he => hfixed (by rw [he]; decide)) htyping
        rw [htext]
        exact ⟨hplain.dotted, h.resolve_named hvar hfixed hbuiltin htyping⟩
  | anything =>
      exact ⟨.single (by decide : PlainWord "Any").identifier,
        @Names.Standard.resolve_builtin _ _ h "Any" .anything rfl⟩
  | nothing => exact ⟨.single (by decide : PlainWord "nothing").identifier, rfl⟩
  | parameter name =>
      exact ⟨.single (h.variableNames name ht).plain.identifier, h.resolve_variable ht⟩
  | _ => exact ht.elim

-- Before brackets a container is spelled with a word that stands for it.
theorem Names.Standard.reads_capitalized (h : names.Standard vars) {name word : Text}
    (hc : capitalized? name = some word) : names.Reads (baseText (.named name)) (.named name) := by
  have hcontainers : ∀ pair ∈ Builtin.containers, PlainWord pair.1 ∧
      Builtin.ofName? pair.1 = some (.named pair.2) := by decide
  obtain ⟨pair, hfound, rfl⟩ := Option.map_eq_some_iff.mp hc
  obtain rfl : pair.2 = name := by simpa using List.find?_some hfound
  obtain ⟨hplain, hbuiltin⟩ := hcontainers pair (List.mem_of_find?_eq_some hfound)
  have htext : baseText (.named pair.2) = pair.1 := by
    rw [baseText, baseType, hc]
    rfl
  rw [htext]
  exact ⟨.single hplain.identifier, h.resolve_builtin hbuiltin⟩

theorem Names.Standard.reads_base (h : names.Standard vars) {base : Ty}
    (hb : base.PrintableAtom vars) : names.Reads (baseText base) base := by
  cases base with
  | named name =>
      cases hc : capitalized? name with
      | some word => exact h.reads_capitalized hc
      | none =>
          have htext : baseText (.named name) = typeText (.named name) := by
            rw [baseText, baseType, hc]
            rfl
          rw [htext]
          exact h.reads_atom hb
  | anything | nothing | parameter => exact h.reads_atom hb
  | _ => exact hb.elim

namespace Ty

theorem builtin_of_mem_unionWords {members : List Ty} {word : Text}
    (h : word ∈ unionWords members) : Builtin.ofName? word = some (.named ("typing." ++ word)) := by
  have hword : word = "Union" ∨ word = "Optional" := by
    unfold unionWords at h
    split at h
    · split at h
      · exact .inr (List.mem_singleton.mp h)
      · exact (List.mem_pair.mp h).symm
    · exact .inl (List.mem_singleton.mp h)
  rcases hword with rfl | rfl <;> rfl

-- To put None last leaves members as they are where it is last already.
theorem filter_nones_last {members : List Ty} (hne : members ≠ [])
    (hn : named "NoneType" ∉ members.dropLast) :
    members.filter (!·.isNone) ++ members.filter (·.isNone) = members := by
  have hfront : ∀ member ∈ members.dropLast, member.isNone = false := by
    intro member hm
    refine Bool.eq_false_iff.mpr fun he => hn ?_
    rwa [← isNone_iff.mp he]
  have hothers : members.dropLast.filter (!·.isNone) = members.dropLast :=
    List.filter_eq_self.mpr fun member hm => by simp [hfront member hm]
  have hnones : members.dropLast.filter (·.isNone) = [] :=
    List.filter_eq_nil_iff.mpr fun member hm => by simp [hfront member hm]
  rw [← List.dropLast_append_getLast hne, List.filter_append, List.filter_append, hothers, hnones]
  cases hlast : (members.getLast hne).isNone <;> simp [hlast]

-- A type that reading its text gives back as it is.
structure Restored (names : Names) (type : Ty) : Prop where
  canonical : type.Canonical
  readsBack : type.ReadsBack names
  noneLast : type.noneLast = type

section

variable {types : List Ty} (hr : ∀ type ∈ types, type.Restored names)

include hr

theorem noneLastAll_of_restored : noneLastAll types = types := by
  rw [noneLastAll_eq]
  exact (List.map_congr_left fun type ht => (hr type ht).noneLast).trans (List.map_id _)

theorem readBack_of_restored : AllReadBack names types :=
  allReadBack_iff.mpr fun type ht => (hr type ht).readsBack

theorem Restored.generic {base : Ty} (hb : names.Reads (baseText base) base) (hc : base.Canonical)
    (hn : (Ty.generic base types).IsNormal) : (Ty.generic base types).Restored names where
  canonical := canonical_generic hn hc fun type ht => (hr type ht).canonical
  readsBack := ⟨hb, readBack_of_restored hr⟩
  noneLast := congrArg (Ty.generic base) (noneLastAll_of_restored hr)

-- With None last, the members of a union are in the order of its text.
theorem Restored.union (hlen : 2 ≤ types.length) (hnodup : types.Nodup)
    (hleaf : ∀ member ∈ types, member.kind ≠ .union ∧ member.kind ≠ .nothing)
    (hnone : Ty.named "NoneType" ∉ types.dropLast) (hn : names.Standard vars) :
    (Ty.union types).Restored names where
  canonical := by
    intro part hp
    simp only [parts, List.mem_cons, mem_partsAll] at hp
    rcases hp with rfl | ⟨type, ht, hp⟩
    · refine ⟨hlen, hleaf, hnodup.imp fun hne => ?_⟩
      rw [Bool.eq_false_iff, ne_eq, same_iff]
      exact hne
    · exact (hr type ht).canonical part hp
  readsBack := by
    refine ⟨fun word hw => hn.resolve_builtin (builtin_of_mem_unionWords hw), ?_,
      readBack_of_restored hr⟩
    rwa [noneLastAll_of_restored hr]
  noneLast := by
    have hne : types ≠ [] := by rintro rfl; simp at hlen
    show Ty.union ((noneLastAll types).filter (!·.isNone) ++
      (noneLastAll types).filter (·.isNone)) = Ty.union types
    rw [noneLastAll_of_restored hr, filter_nones_last hne hnone]

end

theorem printableAtom_callable : PrintableAtom vars (named "typing.Callable") :=
  .inr (.inl ⟨"Callable", rfl, by decide, by decide, rfl⟩)

theorem PrintableAtom.restored {type : Ty} (h : type.PrintableAtom vars)
    (hn : names.Standard vars) : type.Restored names where
  canonical := h.canonical
  readsBack := by
    have hreads := hn.reads_atom h
    cases type <;> first | exact hreads | exact h.elim
  noneLast := noneLast_atom h.isAtom

mutual

-- The cases are those of the text.
theorem Printable.restored (hn : names.Standard vars) :
    ∀ type : Ty, type.Printable vars → type.Restored names
  | named _, h | anything, h | nothing, h | parameter _, h => PrintableAtom.restored h hn
  | generic base params, h => by
      obtain ⟨hparams, hshape⟩ := h
      have hrestored := AllPrintable.restored hn params hparams
      rcases hshape with ⟨rfl, hone⟩ | ⟨rfl, result, rfl⟩ | ⟨hbase, htuple, hcallable, hne⟩
      · refine .generic hrestored (hn.reads_capitalized rfl)
          (canonical_named _ (by decide) (by decide)) ⟨trivial, ?_, fun _ => hone, fun he => ?_⟩
        · rintro rfl
          simp at hone
        · exact absurd (named.inj he) (by decide)
      · refine .generic hrestored (hn.reads_base printableAtom_callable)
          (canonical_named _ (by decide) (by decide))
          ⟨trivial, by simp, fun he => ?_, fun _ => ⟨result, rfl⟩⟩
        exact absurd (named.inj he) (by decide)
      · exact .generic hrestored (hn.reads_base hbase) hbase.canonical
          ⟨hbase.isAtom, hne, fun he => absurd he htuple, fun he => absurd he hcallable⟩
  | tuple base params, h => by
      obtain ⟨rfl, hne, hparams⟩ := h
      have hrestored := AllPrintable.restored hn params hparams
      exact ⟨canonical_tuple hne fun type ht => (hrestored type ht).canonical,
        ⟨hn.reads_capitalized rfl, readBack_of_restored hrestored⟩,
        congrArg (tuple (named "tuple")) (noneLastAll_of_restored hrestored)⟩
  | callable base args result, h => by
      obtain ⟨rfl, hne, hargs, hresult⟩ := h
      have hrestored := AllPrintable.restored hn args hargs
      have hlast := Printable.restored hn result hresult
      exact ⟨canonical_callable (fun type ht => (hrestored type ht).canonical) hlast.canonical,
        ⟨hn.reads_base printableAtom_callable, hne, readBack_of_restored hrestored,
          hlast.readsBack⟩,
        congrArg₂ (callable (named "typing.Callable")) (noneLastAll_of_restored hrestored)
          hlast.noneLast⟩
  | union members, h => by
      obtain ⟨hlen, hnodup, hleaf, hnone, hmembers⟩ := h
      exact .union (AllPrintable.restored hn members hmembers) hlen hnodup hleaf hnone hn

theorem AllPrintable.restored (hn : names.Standard vars) :
    ∀ types : List Ty, AllPrintable vars types → ∀ type ∈ types, type.Restored names
  | [], _ => by simp
  | first :: rest, h => by
      have hfirst := Printable.restored hn first h.1
      have hrest := AllPrintable.restored hn rest h.2
      exact List.forall_mem_cons.mpr ⟨hfirst, hrest⟩

end

end Ty

end

end TypeStub
