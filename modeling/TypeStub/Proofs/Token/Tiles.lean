import Mathlib.Data.List.Pairwise
import TypeStub.Proofs.Token.Identifier
import TypeStub.Proofs.Token.TripleQuoted

namespace TypeStub

-- A token whose text stands at a spot of the source. A text that opens as a triple-quoted string
-- is one, to its closing quotes; any other text stays on its line.
structure Token.StandsAt (lines : List Text) (spot : Spot) (t : Token) : Prop where
  sourced : t.kind.isSourced = true
  line : t.line = spot.row + 1
  column : t.column = spot.column + 1
  nonempty : t.text ≠ []
  text : t.text <+: textFrom lines spot
  tripleQuoted : Lexeme.OpensTriple t.text → t.kind = .string ∧ Lexeme.IsTripleQuoted t.text
  inline : ¬ Lexeme.OpensTriple t.text → '\n' ∉ t.text
  lexed : t.Lexed

-- A token of the layout, which takes nothing of the source.
structure Token.MarksAt (spot : Spot) (t : Token) : Prop where
  unsourced : t.kind.isSourced = false
  line : t.line = spot.row + 1
  column : t.column = spot.column + 1

-- What a scan passes over from one spot to another.
inductive Gap (lines : List Text) : Spot → Spot → Prop
  | blank {row column : Nat} {c : Char} : byteAt? lines ⟨row, column⟩ = some c →
      Text.isBlank c = true → Gap lines ⟨row, column⟩ ⟨row, column + 1⟩
  | comment {row column : Nat} {rest : Text} : (rowText lines row).drop column = '#' :: rest →
      Lexeme.typeCommentLength? rest = none →
      Gap lines ⟨row, column⟩ ⟨row, (rowText lines row).length⟩
  | continuation {row column : Nat} {rest : Text} :
      (rowText lines row).drop column = '\\' :: rest → rest.all Text.isBlank = true →
      Gap lines ⟨row, column⟩ ⟨row, (rowText lines row).length⟩
  | lineEnd {row : Nat} : Gap lines ⟨row, (rowText lines row).length⟩ ⟨row + 1, 0⟩

-- The source from one spot to another, as tokens and gaps one after the other.
inductive Tiles (lines : List Text) : Spot → Spot → List Token → Prop
  | nil (spot : Spot) : Tiles lines spot spot []
  | gap {spot next last : Spot} {tokens : List Token} : Gap lines spot next →
      Tiles lines next last tokens → Tiles lines spot last tokens
  | token {spot last : Spot} {t : Token} {tokens : List Token} : t.StandsAt lines spot →
      Tiles lines (spot.past t.text) last tokens → Tiles lines spot last (t :: tokens)
  | mark {spot last : Spot} {t : Token} {tokens : List Token} : t.MarksAt spot →
      Tiles lines spot last tokens → Tiles lines spot last (t :: tokens)

namespace Token

variable {lines : List Text} {spot : Spot} {t : Token}

theorem StandsAt.start_eq (h : t.StandsAt lines spot) : t.start = spot := by
  simp only [start, h.line, h.column, Nat.add_sub_cancel]

theorem StandsAt.finish_eq (h : t.StandsAt lines spot) : t.finish = spot.past t.text := by
  rw [finish, h.start_eq]

theorem MarksAt.start_eq (h : t.MarksAt spot) : t.start = spot := by
  simp only [start, h.line, h.column, Nat.add_sub_cancel]

end Token

section

variable {lines : List Text} {spot next last middle : Spot} {tokens more : List Token}

theorem Gap.le (h : Gap lines spot next) : spot ≤ next := by
  rw [Spot.le_iff]
  cases h with
  | blank => dsimp only; omega
  | comment hd => exact .inr ⟨rfl, by have := congrArg List.length hd; simp at this; dsimp only; omega⟩
  | continuation hd =>
      exact .inr ⟨rfl, by have := congrArg List.length hd; simp at this; dsimp only; omega⟩
  | lineEnd => dsimp only; omega

namespace Tiles

theorem append (first : Tiles lines spot middle tokens) (second : Tiles lines middle last more) :
    Tiles lines spot last (tokens ++ more) := by
  induction first with
  | nil => exact second
  | gap hgap _ ih => exact .gap hgap (ih second)
  | token ht _ ih => exact .token ht (ih second)
  | mark ht _ ih => exact .mark ht (ih second)

theorem le (h : Tiles lines spot last tokens) : spot ≤ last := by
  induction h with
  | nil => exact le_refl _
  | gap hgap _ ih => exact le_trans hgap.le ih
  | token ht _ ih => exact le_trans (Spot.lt_past ht.nonempty _).le ih
  | mark _ _ ih => exact ih

-- Every token stands where it says.
theorem stands (h : Tiles lines spot last tokens) {t : Token} (hm : t ∈ tokens) :
    t.StandsAt lines t.start ∨ t.MarksAt t.start := by
  induction h with
  | nil => exact absurd hm List.not_mem_nil
  | gap _ _ ih => exact ih hm
  | token ht _ ih =>
      obtain rfl | hm := List.mem_cons.mp hm
      · exact .inl (ht.start_eq.symm ▸ ht)
      · exact ih hm
  | mark ht _ ih =>
      obtain rfl | hm := List.mem_cons.mp hm
      · exact .inr (ht.start_eq.symm ▸ ht)
      · exact ih hm

theorem le_start (h : Tiles lines spot last tokens) {t : Token} (hm : t ∈ tokens) :
    spot ≤ t.start := by
  induction h with
  | nil => exact absurd hm List.not_mem_nil
  | gap hgap _ ih => exact le_trans hgap.le (ih hm)
  | token ht _ ih =>
      obtain rfl | hm := List.mem_cons.mp hm
      · exact ht.start_eq.ge
      · exact le_trans (Spot.lt_past ht.nonempty _).le (ih hm)
  | mark ht _ ih =>
      obtain rfl | hm := List.mem_cons.mp hm
      · exact ht.start_eq.ge
      · exact ih hm

theorem finish_le (h : Tiles lines spot last tokens) {t : Token} (hm : t ∈ tokens)
    (hs : t.kind.isSourced = true) : t.finish ≤ last := by
  induction h with
  | nil => exact absurd hm List.not_mem_nil
  | gap _ _ ih => exact ih hm
  | token ht hrest ih =>
      rcases List.mem_cons.mp hm with rfl | hm
      · rw [ht.finish_eq]
        exact hrest.le
      · exact ih hm
  | mark ht _ ih =>
      rcases List.mem_cons.mp hm with rfl | hm
      · exact absurd hs (by simp [ht.unsourced])
      · exact ih hm

-- The tokens come in the order in which they stand.
theorem ordered (h : Tiles lines spot last tokens) :
    tokens.Pairwise fun t u => t.start ≤ u.start := by
  induction h with
  | nil => exact .nil
  | gap _ _ ih => exact ih
  | token ht hrest ih =>
      refine .cons (fun u hu => ?_) ih
      rw [ht.start_eq]
      exact le_trans (Spot.lt_past ht.nonempty _).le (hrest.le_start hu)
  | mark ht hrest ih => exact .cons (fun u hu => ht.start_eq ▸ hrest.le_start hu) ih

-- A run of blanks.
theorem blanks {row column n : Nat}
    (h : ∀ i < n, ∃ c, byteAt? lines ⟨row, column + i⟩ = some c ∧ Text.isBlank c = true) :
    Tiles lines ⟨row, column⟩ ⟨row, column + n⟩ [] := by
  induction n with
  | zero => exact .nil _
  | succ n ih =>
      obtain ⟨c, hc, hb⟩ := h n (Nat.lt_succ_self n)
      have hfirst := ih fun i hi => h i (Nat.lt_succ_of_lt hi)
      exact hfirst.append (.gap (.blank hc hb) (.nil _))

end Tiles

end

end TypeStub
