import TypeStub.Grammar.TypeExpr
import TypeStub.Proofs.Ensures
import TypeStub.Proofs.Grammar.Reads
import TypeStub.Proofs.Token.Layout

namespace TypeStub

mutual

-- How many type expressions are nested in a type of names, lists and parametrized names.
def Expr.nesting : Expr → Nat
  | .list elements | .subscript _ elements => nestingAll elements + 1
  | _ => 1

def Expr.nestingAll : List Expr → Nat
  | [] => 0
  | element :: rest => max element.nesting (nestingAll rest)

end

theorem Expr.nesting_pos (e : Expr) : 0 < e.nesting := by
  cases e <;> simp [nesting]

theorem Expr.nesting_le_nestingAll {e : Expr} {elements : List Expr} (h : e ∈ elements) :
    e.nesting ≤ nestingAll elements := by
  induction elements with
  | nil => simp at h
  | cons first rest ih =>
      rw [nestingAll]
      rcases List.mem_cons.mp h with rfl | h
      · exact Nat.le_max_left _ _
      · exact Nat.le_trans (ih h) (Nat.le_max_right _ _)

-- The tokens of a text that is a line or a part of one.
def spell (text : Text) : List Spelling := (scanLine ⟨0, 0, text, []⟩ 0).1.map Token.spelling

theorem Scans.spell {text : Text} {spellings : List Spelling} (h : Scans text spellings) :
    spell text = spellings := by
  obtain ⟨tokens, ht, hscan⟩ := h 0 0 [] 0
  rw [TypeStub.spell, hscan]
  exact ht

theorem Spells.spell {text : Text} {spellings : List Spelling}
    (h : Spells Delimited text spellings) : spell text = spellings :=
  (h.whole delimited_nil).spell

theorem DottedName.spell {text : Text} (h : DottedName text) :
    DottedSpelling text (spell text) := by
  obtain ⟨spellings, hs⟩ := h.spelling
  rwa [hs.spells.spell]

theorem DottedSpelling.head {text : Text} {spellings : List Spelling}
    (h : DottedSpelling text spellings) : ∃ first more, spellings = (.ident, first) :: more ∧
      (more = [] ∧ first = text ∨ (headSpelling more).1 = .dot) := by
  cases h with
  | single h => exact ⟨text, [], rfl, .inl ⟨rfl, rfl⟩⟩
  | cons h _ => exact ⟨_, _, rfl, .inr rfl⟩

namespace Grammar

open TypeStub.Parser

-- What may follow a type so that all of it is read.
structure TypeEnds (e : Expr) (spellings : List Spelling) : Prop where
  dot : (headSpelling spellings).1 ≠ .dot
  bracket : (headSpelling spellings).1 ≠ .leftBracket
  or : (headSpelling spellings).1 ≠ .kwOr
  record : e = .name "NamedTuple" → (headSpelling spellings).1 ≠ .leftParen

theorem typeEnds_of_mem {e : Expr} {spellings : List Spelling} (kinds : List TokenKind)
    (h : (headSpelling spellings).1 ∈ kinds)
    (hk : ∀ kind ∈ kinds, kind ∉ [.dot, .leftBracket, .kwOr, .leftParen]) :
    TypeEnds e spellings := by
  have hne : ∀ kind ∈ [TokenKind.dot, .leftBracket, .kwOr, .leftParen],
      (headSpelling spellings).1 ≠ kind := by
    rintro kind hm rfl
    exact hk _ h hm
  exact ⟨hne _ (by simp), hne _ (by simp), hne _ (by simp), fun _ => hne _ (by simp)⟩

-- A text that reads as a type wherever the type may end after it.
structure Typed (text : Text) (e : Expr) : Prop where
  spells : Spells Delimited text (spell text)
  balanced : Balanced (spell text)
  opens : ∃ kind ∈ [TokenKind.ident, .leftBracket, .ellipsis], ∃ first more,
    spell text = (kind, first) :: more
  reads : ∀ budget, e.nesting ≤ budget →
    Reads (typeExpr budget) (spell text) (TypeEnds e) (· = e)

section

variable {e : Expr} {spellings : List Spelling} {follow : List Spelling → Prop} {budget : Nat}

-- A single alternative.
theorem reads_single (h : Reads (typeAtom (typeExpr budget)) spellings follow (· = e))
    (hf : ∀ s, follow s → (headSpelling s).1 ≠ .kwOr) :
    Reads (typeExpr (budget + 1)) spellings follow (· = e) := by
  rw [typeExpr]
  exact (h.separatedOne hf).bindPure fun _ ho => by rw [ho]; rfl

-- A token that opens no record, whatever its text.
theorem reads_word {name : Text} {read : Parser Expr} (hn : DottedSpelling name spellings)
    {more : List Spelling} (hm : ∀ s, follow s → (headSpelling (more ++ s)).1 ≠ .dot)
    (hr : ∀ s, follow s → name = "NamedTuple" → (headSpelling (more ++ s)).1 ≠ .leftParen)
    (h : Reads (do
      if ← accept .leftBracket then return .subscript (.name name) (← typeItems read)
      return .name name) more follow (· = e)) :
    Reads (typeAtom read) (spellings ++ more) follow (· = e) := by
  obtain ⟨first, others, hspelled, hothers⟩ := hn.head
  refine .peek fun token ⟨s, hs, ht⟩ => ?_
  rw [hspelled] at ht
  have hk : token.kind = .ident := congrArg Prod.fst ht
  have htext : token.text = first := congrArg Prod.snd ht
  simp only [hk]
  refine .peekNext fun second ⟨s, hs, ht⟩ => ?_
  rw [hspelled] at ht
  have hsecond : token.text = "NamedTuple" → second.kind ≠ .leftParen := by
    intro hword hparen
    have hnext : (headSpelling (others ++ (more ++ s))).1 = .leftParen := by
      rw [← hparen, ← List.append_assoc]
      exact (congrArg Prod.fst ht).symm
    rcases hothers with ⟨rfl, rfl⟩ | hdot
    · exact hr s hs (htext ▸ hword) hnext
    · rw [headSpelling_append hdot (by simp)] at hnext
      simp at hnext
  rw [if_neg fun hc => hsecond hc.1 hc.2]
  exact (reads_dottedName hn).bind (fun _ h' => h' ▸ h) fun s hs => hm s hs

-- A text of one atom reads as it.
theorem Typed.of_atom {text : Text} (hs : Spells Delimited text spellings)
    (hb : Balanced spellings) (ho : ∃ kind ∈ [TokenKind.ident, .leftBracket, .ellipsis],
      ∃ first more, spellings = (kind, first) :: more)
    (hr : ∀ budget, e.nesting ≤ budget + 1 →
      Reads (typeAtom (typeExpr budget)) spellings (TypeEnds e) (· = e)) : Typed text e := by
  obtain rfl := hs.spell
  refine ⟨hs, hb, ho, fun budget hle => ?_⟩
  obtain ⟨inner, rfl⟩ := Nat.exists_eq_succ_of_ne_zero
    (Nat.ne_of_gt (Nat.lt_of_lt_of_le e.nesting_pos hle))
  exact reads_single (hr inner hle) fun _ hs => hs.or

theorem typed_name {name : Text} (hn : DottedName name) : Typed name (.name name) := by
  obtain ⟨first, more, hfirst, -⟩ := hn.spell.head
  refine .of_atom hn.spell.spells hn.spell.balanced ⟨_, by simp, first, more, hfirst⟩ ?_
  intro budget _
  rw [← List.append_nil (TypeStub.spell name)]
  refine reads_word hn.spell (fun _ hs => hs.dot) (fun _ hs hr => hs.record (by rw [hr])) ?_
  exact .refused (fun _ hs => hs.bracket) (.pure rfl)

theorem typed_ellipsis : Typed "..." .ellipsis := by
  have hs : Spells Delimited "..." [sign .ellipsis] :=
    ⟨by decide, fun _ _ _ h => .token '.' ['.', '.'] rfl h⟩
  refine .of_atom hs (.cons (fun _ => rfl) .nil)
    ⟨_, by simp, _, _, rfl⟩ fun budget _ => .peek fun token ⟨s, _, ht⟩ => ?_
  have hk : token.kind = .ellipsis := congrArg Prod.fst ht
  simp only [hk]
  exact .taken fun _ _ => .pure rfl

-- The tokens of texts with commas between them.
def listed (texts : List Text) : List Spelling := separatedBy (sign .comma) (texts.map spell)

theorem spells_comma : Spells Anything ", " [sign .comma] :=
  ⟨by decide, fun _ _ _ h => .token ',' [] rfl (.blank h)⟩

section

variable {ι : Type} {text : ι → Text} {spelled : ι → List Spelling} {is : List ι}

theorem spells_joined (h : ∀ i ∈ is, Spells Delimited (text i) (spelled i)) :
    Spells Delimited (Text.joinWith ", " (is.map text))
      (separatedBy (sign .comma) (is.map spelled)) := by
  induction is with
  | nil => exact ⟨show Inline [] by decide, fun _ _ _ h => h⟩
  | cons first rest ih =>
      cases rest with
      | nil =>
          rw [List.map_singleton, Text.joinWith_singleton]
          simpa [separatedBy] using h first (by simp)
      | cons next more =>
          have hrest := ih fun i hi => h i (by simp [hi])
          have hfirst := (h first (by simp)).append spells_comma
            fun _ _ => delimited_cons (c := ',') (by simp)
          have hall := hfirst.append hrest fun _ _ => trivial
          rw [List.map_cons, List.map_cons, Text.joinWith_cons]
          simpa [separatedBy] using hall

theorem balanced_joined (h : ∀ i ∈ is, Balanced (spelled i)) :
    Balanced (separatedBy (sign .comma) (is.map spelled)) := by
  cases is with
  | nil => exact .nil
  | cons first rest =>
      have hrest : Balanced ((rest.map spelled).flatMap (sign .comma :: ·)) := by
        induction rest with
        | nil => exact .nil
        | cons next more ih =>
            refine .append (.cons (fun _ => rfl) (h next (by simp))) (ih fun i hi => h i ?_)
            rcases List.mem_cons.mp hi with rfl | hi <;> simp [*]
      exact (h first (by simp)).append hrest

end

theorem spells_listed {texts : List Text} (h : ∀ text ∈ texts, Spells Delimited text (spell text)) :
    Spells Delimited (Text.joinWith ", " texts) (listed texts) := by
  have hall : Spells Delimited (Text.joinWith ", " (texts.map id)) (listed texts) := spells_joined h
  rwa [List.map_id] at hall

theorem balanced_listed {texts : List Text} (h : ∀ text ∈ texts, Balanced (spell text)) :
    Balanced (listed texts) := balanced_joined h

-- Texts between brackets.
def bracketed (texts : List Text) : Text := "[" ++ Text.joinWith ", " texts ++ "]"

def bracketedSpelling (texts : List Text) : List Spelling :=
  sign .leftBracket :: listed texts ++ [sign .rightBracket]

theorem spells_bracketed {texts : List Text}
    (h : ∀ text ∈ texts, Spells Delimited text (spell text)) :
    Spells Anything (bracketed texts) (bracketedSpelling texts) := by
  have hopen : Spells Anything "[" [sign .leftBracket] :=
    ⟨by decide, fun _ _ _ h => .token '[' [] rfl h⟩
  have hclose : Spells Anything "]" [sign .rightBracket] :=
    ⟨by decide, fun _ _ _ h => .token ']' [] rfl h⟩
  exact (hopen.append (spells_listed h) fun _ _ => trivial).append hclose
    fun _ _ => delimited_cons (c := ']') (by simp)

theorem balanced_bracketed {texts : List Text} (h : ∀ text ∈ texts, Balanced (spell text)) :
    Balanced (bracketedSpelling texts) :=
  (balanced_listed h).bracket (fun _ => rfl) fun _ => rfl

theorem nesting_le_of_part {parts : List (Text × Expr)} {part : Text × Expr} (hm : part ∈ parts)
    (hb : Expr.nestingAll (parts.map (·.2)) + 1 ≤ budget + 1) : part.2.nesting ≤ budget :=
  Nat.le_trans (Expr.nesting_le_nestingAll (List.mem_map_of_mem hm)) (Nat.le_of_succ_le_succ hb)

section

variable {parts : List (Text × Expr)} (h : ∀ part ∈ parts, Typed part.1 part.2)

include h

theorem Typed.spells_all : ∀ text ∈ parts.map (·.1), Spells Delimited text (spell text) := by
  intro text ht
  obtain ⟨part, hm, rfl⟩ := List.mem_map.mp ht
  exact (h part hm).spells

theorem Typed.balanced_all : ∀ text ∈ parts.map (·.1), Balanced (spell text) := by
  intro text ht
  obtain ⟨part, hm, rfl⟩ := List.mem_map.mp ht
  exact (h part hm).balanced

theorem reads_typeItems (follow : List Spelling → Prop) (hne : parts ≠ []) (hb : ∀ part ∈ parts, part.2.nesting ≤ budget) :
    Reads (typeItems (typeExpr budget)) (listed (parts.map (·.1)) ++ [sign .rightBracket]) follow
      (· = parts.map (·.2)) := by
  obtain ⟨first, rest, rfl⟩ := List.exists_cons_of_ne_nil hne
  have hitems : Reads (typeItems (typeExpr budget))
      (separatedBy (sign .comma) ((first :: rest).map fun part => spell part.1) ++ [sign .rightBracket])
      follow (List.Forall₂ (fun part a => a = part.2) (first :: rest)) := by
    refine .items (fun part hm => ?_) (fun part hm s => ?_) (by simp)
    · refine ((h part hm).reads budget (hb part hm)).mono (fun s hs => ?_) fun _ ha => ha
      exact typeEnds_of_mem [.comma, .rightBracket] (by simpa [AfterItem] using hs) (by decide)
    · obtain ⟨kind, hk, text, more, he⟩ := (h part (by simp [hm])).opens
      rw [he]
      rintro rfl
      simp at hk
  rw [listed, List.map_map]
  exact hitems.mono (fun _ hs => hs) fun _ ha => eq_map_of_forall₂ ha

theorem typed_list : Typed (bracketed (parts.map (·.1))) (.list (parts.map (·.2))) := by
  refine .of_atom ((spells_bracketed (Typed.spells_all h)).mono fun _ _ => trivial)
    (balanced_bracketed (Typed.balanced_all h)) ⟨_, by simp, _, _, rfl⟩ fun budget hb => ?_
  refine .peek fun token ⟨s, _, ht⟩ => ?_
  have hk : token.kind = .leftBracket := congrArg Prod.fst ht
  simp only [hk]
  refine .taken fun _ _ => ?_
  cases parts with
  | nil => exact .accepted "]" (.pure rfl)
  | cons first rest =>
      refine .refused (fun s _ => ?_) ?_
      · obtain ⟨kind, hk, text, more, he⟩ := (h first (by simp)).opens
        rw [listed, List.map_cons, List.map_cons, separatedBy, he]
        rintro rfl
        simp at hk
      · have hitems := reads_typeItems h (TypeEnds (.list ((first :: rest).map (·.2))))
          (by simp) fun part hm => nesting_le_of_part hm hb
        exact hitems.bindPure fun _ ha => by rw [ha]

theorem typed_subscript {name : Text} (hn : DottedName name) (hne : parts ≠ []) :
    Typed (name ++ bracketed (parts.map (·.1))) (.subscript (.name name) (parts.map (·.2))) := by
  obtain ⟨first, more, hfirst, -⟩ := hn.spell.head
  have hs := hn.spell.spells.append (spells_bracketed (Typed.spells_all h))
    fun _ _ => delimited_cons (c := '[') (by simp)
  refine .of_atom (hs.mono fun _ _ => trivial)
    (hn.spell.balanced.append (balanced_bracketed (Typed.balanced_all h)))
    ⟨.ident, by simp, first, _, by rw [hfirst]; rfl⟩ fun budget hb => ?_
  refine reads_word hn.spell (fun _ _ => by simp [bracketedSpelling])
    (fun _ _ _ => by simp [bracketedSpelling]) (.accepted "[" ?_)
  have hitems := reads_typeItems h (TypeEnds (.subscript (.name name) (parts.map (·.2))))
    hne fun part hm => nesting_le_of_part hm hb
  exact hitems.bindPure fun _ ha => by rw [ha]

end

end

end Grammar

end TypeStub
