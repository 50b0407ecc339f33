import TypeStub.Proofs.Token.Moved
import TypeStub.Proofs.Token.Scan

-- Lines are read without looking at the lines below them, but for a triple-quoted string that
-- does not close in them.
namespace TypeStub

namespace Cursor

-- Reading along the lines gives such tokens and comes to such a place and number of open brackets.
inductive Reads : Cursor → Nat → List Token → Cursor → Nat → Prop
  | refl (c : Cursor) (depth : Nat) : Reads c depth [] c depth
  | token {c next last : Cursor} {depth inner : Nat} {kind : TokenKind} {text : Text}
      {tokens : List Token} : c.step = .token kind text next →
      Reads next (depthAfter kind depth) tokens last inner →
      Reads c depth (⟨kind, text, c.row + 1, c.column + 1⟩ :: tokens) last inner
  | blank {c next last : Cursor} {depth inner : Nat} {tokens : List Token} :
      c.step = .blank next → Reads next depth tokens last inner → Reads c depth tokens last inner

theorem Reads.scanLine_eq {c last : Cursor} {depth inner : Nat} {tokens : List Token}
    (h : Reads c depth tokens last inner) : scanLine c depth =
      (tokens ++ (scanLine last inner).1, (scanLine last inner).2) := by
  induction h with
  | refl => rfl
  | token hs _ ih =>
      rw [scanLine_token hs, ih]
      rfl
  | blank hs _ ih => rw [scanLine_blank hs, ih]

theorem Reads.on {lines : List Text} (hl : ∀ line ∈ lines, '\n' ∉ line) {c last : Cursor}
    {depth inner : Nat} {tokens : List Token} (h : Reads c depth tokens last inner)
    (hon : c.On lines) : last.On lines := by
  induction h with
  | refl => exact hon
  | token hs _ ih => exact ih (hon.step_token hl hs).2.2
  | blank hs _ ih => exact ih (hon.step_blank hs).2

-- The same place with more lines below.
def onto (more : List Text) (c : Cursor) : Cursor := { c with below := c.below ++ more }

def Step.onto (more : List Text) : Step → Step
  | .token kind text next => .token kind text (next.onto more)
  | .blank next => .blank (next.onto more)
  | .lineEnd joined => .lineEnd joined
  | .bad cause => .bad cause

-- A triple-quoted string opens here and does not close before the end.
def Unclosed (c : Cursor) : Prop := ∃ first rest n quote, c.rest = first :: rest ∧
  Lexeme.ofText first rest = .tripleQuoted n quote ∧
  closeTriple quote c.row (c.column + (n + 3)) (c.rest.drop (n + 3)) c.below = none

variable {quote : Char} {row column : Nat} {rest text : Text} {below more : List Text}
  {c next : Cursor}

theorem closeTriple_here {n : Nat} (h : Lexeme.closingTriple? quote rest = some n) :
    closeTriple quote row column rest below =
      some (rest.take n, ⟨row, column + n, rest.drop n, below⟩) := by
  cases below with
  | nil => rw [closeTriple, h]; rfl
  | cons line others => simp only [closeTriple, h]

theorem closeTriple_below {line : Text} (h : Lexeme.closingTriple? quote rest = none) :
    closeTriple quote row column rest (line :: below) =
      (closeTriple quote (row + 1) 0 line below).map fun (text, next) =>
        (rest ++ '\n' :: text, next) := by
  simp only [closeTriple, h]

theorem closeTriple_onto (h : closeTriple quote row column rest below = some (text, next)) :
    closeTriple quote row column rest (below ++ more) = some (text, next.onto more) := by
  induction below generalizing row column rest text with
  | nil =>
      obtain ⟨n, hn, heq⟩ := Option.map_eq_some_iff.mp h
      obtain ⟨rfl, rfl⟩ := Prod.mk.inj heq
      exact closeTriple_here hn
  | cons line others ih =>
      cases hn : Lexeme.closingTriple? quote rest with
      | some n =>
          rw [closeTriple_here hn] at h
          obtain ⟨rfl, rfl⟩ := Prod.mk.inj ((Option.some.injEq ..).mp h)
          exact closeTriple_here hn
      | none =>
          rw [closeTriple_below hn] at h
          obtain ⟨⟨inner, after⟩, hinner, heq⟩ := Option.map_eq_some_iff.mp h
          obtain ⟨rfl, rfl⟩ := Prod.mk.inj heq
          rw [List.cons_append, closeTriple_below hn, ih hinner]
          rfl

theorem closeTriple_row (h : closeTriple quote row column rest below = some (text, next)) :
    row ≤ next.row := by
  induction below generalizing row column rest text with
  | nil =>
      obtain ⟨n, -, heq⟩ := Option.map_eq_some_iff.mp h
      obtain ⟨-, rfl⟩ := Prod.mk.inj heq
      exact Nat.le_refl row
  | cons line others ih =>
      cases hn : Lexeme.closingTriple? quote rest with
      | some n =>
          rw [closeTriple_here hn] at h
          obtain ⟨-, rfl⟩ := Prod.mk.inj ((Option.some.injEq ..).mp h)
          exact Nat.le_refl row
      | none =>
          rw [closeTriple_below hn] at h
          obtain ⟨⟨inner, after⟩, hinner, heq⟩ := Option.map_eq_some_iff.mp h
          obtain ⟨-, rfl⟩ := Prod.mk.inj heq
          exact Nat.le_of_succ_le (ih hinner)

-- A string that does not close in some lines closes below them, if at all.
theorem closeTriple_beyond (hnone : closeTriple quote row column rest below = none)
    (h : closeTriple quote row column rest (below ++ more) = some (text, next)) :
    row + below.length + 1 ≤ next.row := by
  induction below generalizing row column rest text with
  | nil =>
      rw [closeTriple, Option.map_eq_none_iff] at hnone
      cases more with
      | nil => rw [List.nil_append, closeTriple, hnone] at h; cases h
      | cons line others =>
          rw [List.nil_append, closeTriple_below hnone] at h
          obtain ⟨⟨inner, after⟩, hinner, heq⟩ := Option.map_eq_some_iff.mp h
          obtain ⟨-, rfl⟩ := Prod.mk.inj heq
          exact closeTriple_row hinner
  | cons line others ih =>
      cases hn : Lexeme.closingTriple? quote rest with
      | some n => rw [closeTriple_here hn] at hnone; cases hnone
      | none =>
          rw [closeTriple_below hn, Option.map_eq_none_iff] at hnone
          rw [List.cons_append, closeTriple_below hn] at h
          obtain ⟨⟨inner, after⟩, hinner, heq⟩ := Option.map_eq_some_iff.mp h
          obtain ⟨-, rfl⟩ := Prod.mk.inj heq
          have hle := ih hnone hinner
          rw [List.length_cons]
          omega

theorem step_onto (h : ¬ c.Unclosed) (more : List Text) :
    (c.onto more).step = c.step.onto more := by
  obtain ⟨row, column, rest, below⟩ := c
  cases rest with
  | nil => rfl
  | cons first rest =>
      simp only [step, onto]
      cases hlex : Lexeme.ofText first rest with
      | tripleQuoted n quote =>
          simp only [tripleString]
          cases hclose : closeTriple quote row (column + (n + 3)) ((first :: rest).drop (n + 3))
            below with
          | none => exact absurd ⟨first, rest, n, quote, rfl, hlex, hclose⟩ h
          | some pair =>
              rw [closeTriple_onto hclose]
              rfl
      | _ => rfl

theorem Unclosed.step_eq (h : c.Unclosed) : c.step = .bad .unterminatedString := by
  obtain ⟨first, rest, n, quote, hrest, hlex, hclose⟩ := h
  simp only [step, hrest, hlex, tripleString]
  rw [hrest] at hclose
  rw [hclose]

theorem Unclosed.opens (h : c.Unclosed) : Lexeme.OpensTriple c.rest := by
  obtain ⟨first, rest, n, quote, hrest, hlex, -⟩ := h
  have hfits := Lexeme.fits_ofText first rest
  rw [hlex, ← hrest] at hfits
  obtain ⟨htwo, hletters, hquote, hopening⟩ := hfits
  refine ⟨c.rest.take n, quote, ?_, hletters, hquote, ?_⟩
  · exact (List.length_take_le n c.rest).trans htwo
  · obtain ⟨after, hafter⟩ := hopening
    refine ⟨after, ?_⟩
    rw [List.append_assoc, hafter, List.take_append_drop]

end Cursor

def LineEnd.onto (more : List Text) : LineEnd → LineEnd
  | .done row width below depth joined => .done row width (below ++ more) depth joined
  | .failed cause row column => .failed cause row column

-- A scan does not look below, unless a string is still open where it comes to the end of the lines.
theorem scanLine_onto (c : Cursor) (depth : Nat) :
    (∀ more, scanLine (c.onto more) depth =
      ((scanLine c depth).1, (scanLine c depth).2.onto more)) ∨
    ∃ front last inner, Cursor.Unclosed last ∧
      ∀ more, Cursor.Reads (c.onto more) depth front (last.onto more) inner := by
  fun_induction scanLine c depth with
  | case1 c depth kind text next hs _ found ending hscan ih =>
      have hstep : ∀ more, (c.onto more).step = .token kind text (next.onto more) := by
        intro more
        rw [Cursor.step_onto (fun hopen => by simp [hopen.step_eq] at hs), hs]
        rfl
      rw [hscan] at ih
      rcases ih with ih | ⟨front, last, inner, hopen, hreads⟩
      · left
        intro more
        rw [scanLine_token (hstep more), ih more]
        rfl
      · right
        exact ⟨⟨kind, text, c.row + 1, c.column + 1⟩ :: front, last, inner, hopen,
          fun more => .token (hstep more) (hreads more)⟩
  | case2 c depth next hs _ ih =>
      have hstep : ∀ more, (c.onto more).step = .blank (next.onto more) := by
        intro more
        rw [Cursor.step_onto (fun hopen => by simp [hopen.step_eq] at hs), hs]
        rfl
      rcases ih with ih | ⟨front, last, inner, hopen, hreads⟩
      · left
        intro more
        rw [scanLine_blank (hstep more), ih more]
      · right
        exact ⟨front, last, inner, hopen, fun more => .blank (hstep more) (hreads more)⟩
  | case3 c depth joined hs =>
      left
      intro more
      have hstep : (c.onto more).step = .lineEnd joined := by
        rw [Cursor.step_onto (fun hopen => by simp [hopen.step_eq] at hs), hs]
        rfl
      rw [scanLine_lineEnd hstep]
      rfl
  | case4 c depth cause hs =>
      by_cases hopen : c.Unclosed
      · right
        exact ⟨[], c, depth, hopen, fun more => .refl _ _⟩
      · left
        intro more
        have hstep : (c.onto more).step = .bad cause := by
          rw [Cursor.step_onto hopen, hs]
          rfl
        rw [scanLine_bad hstep]
        rfl

end TypeStub
