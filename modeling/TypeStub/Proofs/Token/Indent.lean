import Mathlib.Data.List.Pairwise
import TypeStub.Proofs.Token.Margin

namespace TypeStub

-- The marks before a line, and the open widths before and after them, the innermost first.
inductive Shift : List Nat → List TokenKind → List Nat → Prop
  | deeper {width : Nat} {indents : List Nat} : indents.headD 0 < width →
      Shift indents [.indent] (width :: indents)
  | back (closed kept : List Nat) :
      Shift (closed ++ kept) (closed.map fun _ => .dedent) kept

theorem shift_indentMarks {width : Nat} {indents kept : List Nat} {marks : List TokenKind}
    {aligned : Bool} (h : indentMarks width indents = (marks, kept, aligned)) :
    Shift indents marks kept := by
  unfold indentMarks at h
  split at h
  · rename_i hdeeper
    simp only [Prod.mk.injEq] at h
    obtain ⟨rfl, rfl, -⟩ := h
    exact .deeper hdeeper
  · simp only [Prod.mk.injEq] at h
    obtain ⟨rfl, rfl, -⟩ := h
    have hback := Shift.back (indents.takeWhile (width < ·)) (indents.dropWhile (width < ·))
    rwa [List.takeWhile_append_dropWhile] at hback

theorem Shift.kinds {before after : List Nat} {marks : List TokenKind} {kind : TokenKind}
    (h : Shift before marks after) (hm : kind ∈ marks) : kind = .indent ∨ kind = .dedent := by
  cases h with
  | deeper => exact .inl (List.mem_singleton.mp hm)
  | back =>
      obtain ⟨-, -, rfl⟩ := List.mem_map.mp hm
      exact .inr rfl

namespace LineStart

-- A column up to which a line is blank.
def Blank (line : Text) (column : Nat) : Prop :=
  column ≤ line.length ∧ ∀ c ∈ line.take column, Text.isBlank c = true

-- The beginning of a line as it is taken: blank up to the column, with marks that fit the blocks
-- that are open.
def Fits (line : Text) (indents : List Nat) : LineStart → Prop
  | .ignored => ∃ column, Blank line column ∧ (line.drop column = [] ∨
      ∃ rest, line.drop column = '#' :: rest ∧ Lexeme.typeCommentLength? rest = none)
  | .misaligned column marks => Blank line column ∧ ∃ kept, Shift indents marks kept
  | .scan column marks kept _ => Blank line column ∧ Shift indents marks kept

theorem fits_lineStart (line : Text) (layout : Layout) :
    (lineStart line layout).Fits line layout.indents := by
  have hblank : Blank line (line.takeWhile Text.isBlank).length := by
    have hhead := List.takeWhile_prefix (l := line) Text.isBlank
    refine ⟨hhead.length_le, fun c hc => ?_⟩
    rw [← List.prefix_iff_eq_take.mp hhead] at hc
    exact List.all_eq_true.mp List.all_takeWhile c hc
  have hstay : Shift layout.indents [] layout.indents := .back [] layout.indents
  unfold lineStart
  split
  · dsimp only
    split
    · rename_i hdrop
      exact ⟨_, hblank, .inl hdrop⟩
    · rename_i c rest hdrop
      split
      · rename_i hhash
        split
        · exact ⟨hblank, hstay⟩
        · rename_i hplain
          refine ⟨_, hblank, .inr ⟨rest, hhash ▸ hdrop, ?_⟩⟩
          exact Option.not_isSome_iff_eq_none.mp hplain
      · split
        · rename_i hmarks
          exact ⟨hblank, shift_indentMarks hmarks⟩
        · rename_i hmarks
          exact ⟨hblank, _, shift_indentMarks hmarks⟩
  · exact ⟨⟨Nat.zero_le _, fun c hc => absurd hc List.not_mem_nil⟩, hstay⟩

theorem fits_of_eq {line : Text} {layout : Layout} {start : LineStart}
    (h : lineStart line layout = start) : start.Fits line layout.indents :=
  h ▸ fits_lineStart line layout

end LineStart

-- Widths with the innermost first, each wider than those around it and than that of no indentation.
def Nested (indents : List Nat) : Prop := (indents ++ [0]).Pairwise (· > ·)

theorem Shift.nested {before after : List Nat} {marks : List TokenKind}
    (h : Shift before marks after) (hn : Nested before) : Nested after := by
  cases h with
  | @deeper width _ hdeeper =>
      refine .cons (fun v hv => ?_) hn
      cases before with
      | nil =>
          obtain rfl := List.mem_singleton.mp hv
          exact hdeeper
      | cons head more =>
          have hwidth : width > head := hdeeper
          obtain rfl | hv := List.mem_cons.mp hv
          · exact hwidth
          · exact Nat.lt_trans (List.rel_of_pairwise_cons hn hv) hwidth
  | back closed =>
      rw [Nested, List.append_assoc] at hn
      exact hn.sublist (List.sublist_append_right closed _)

section

variable {tokens more : List Token} {depth inner last : Nat}

def indentsIn (tokens : List Token) : Nat := tokens.countP (·.kind = .indent)

def dedentsIn (tokens : List Token) : Nat := tokens.countP (·.kind = .dedent)

@[simp] theorem indentsIn_append : indentsIn (tokens ++ more) = indentsIn tokens + indentsIn more :=
  List.countP_append

@[simp] theorem dedentsIn_append : dedentsIn (tokens ++ more) = dedentsIn tokens + dedentsIn more :=
  List.countP_append

-- Tokens that lead from so many open blocks to so many, and close none that is not open.
structure Leads (depth : Nat) (tokens : List Token) (last : Nat) : Prop where
  total : last + dedentsIn tokens = depth + indentsIn tokens
  front : ∀ front, front <+: tokens → dedentsIn front ≤ depth + indentsIn front

theorem Leads.append (first : Leads depth tokens inner) (second : Leads inner more last) :
    Leads depth (tokens ++ more) last := by
  have hfirst := first.total
  have hsecond := second.total
  refine ⟨by rw [indentsIn_append, dedentsIn_append]; omega, fun front hfront => ?_⟩
  obtain hshort | hlong := List.prefix_or_prefix_of_prefix hfront (List.prefix_append tokens more)
  · exact first.front front hshort
  · obtain ⟨rest, rfl⟩ := hlong
    have hrest := second.front rest ((List.prefix_append_right_inj tokens).mp hfront)
    rw [indentsIn_append, dedentsIn_append]
    omega

theorem Leads.few (total : last + dedentsIn tokens = depth + indentsIn tokens)
    (h : dedentsIn tokens ≤ depth) : Leads depth tokens last := by
  refine ⟨total, fun front hfront => ?_⟩
  have hle : dedentsIn front ≤ dedentsIn tokens := hfront.sublist.countP_le
  omega

-- Tokens that mark no blocks leave those that are open.
theorem Leads.flat (h : ∀ t ∈ tokens, t.kind ≠ .indent ∧ t.kind ≠ .dedent) :
    Leads depth tokens depth := by
  have hindents : indentsIn tokens = 0 := List.countP_eq_zero.mpr fun t ht => by simp [(h t ht).1]
  have hdedents : dedentsIn tokens = 0 := List.countP_eq_zero.mpr fun t ht => by simp [(h t ht).2]
  exact .few (by omega) (by omega)

-- Dedents close a block each.
theorem Leads.closing (depth : Nat) (h : ∀ t ∈ tokens, t.kind = .dedent) :
    Leads (tokens.length + depth) tokens depth := by
  have hindents : indentsIn tokens = 0 := List.countP_eq_zero.mpr fun t ht => by simp [h t ht]
  have hdedents : dedentsIn tokens = tokens.length :=
    List.countP_eq_length.mpr fun t ht => by simp [h t ht]
  exact .few (by omega) (by omega)

theorem Leads.marks {before after : List Nat} {marks : List TokenKind}
    (h : Shift before marks after) (row column : Nat) :
    Leads before.length (marks.map (markToken row column)) after.length := by
  cases h with
  | deeper => exact .few rfl (Nat.zero_le _)
  | back closed =>
      have hkinds : ∀ t ∈ (closed.map fun _ => TokenKind.dedent).map (markToken row column),
          t.kind = .dedent := by
        intro t ht
        obtain ⟨kind, hkind, rfl⟩ := List.mem_map.mp ht
        obtain ⟨-, -, rfl⟩ := List.mem_map.mp hkind
        rfl
      have hclosing := Leads.closing after.length hkinds
      rwa [List.length_map, List.length_map, ← List.length_append] at hclosing

end

namespace Margin

variable {m next last : Margin} {found : List Token}

theorem Line.nested (h : Line m found next) (hn : Nested m.layout.indents) :
    Nested next.layout.indents := by
  cases h with
  | ignored => exact hn
  | scanned hstart =>
      obtain ⟨-, hshift⟩ := LineStart.fits_of_eq hstart
      exact hshift.nested hn

theorem Run.nested (h : Run m found last) (hn : Nested m.layout.indents) :
    Nested last.layout.indents := by
  induction h with
  | refl => exact hn
  | line hline _ ih => exact ih (hline.nested hn)

end Margin

end TypeStub
