import TypeStub.Proofs.Grammar.Exchange
import TypeStub.Proofs.Grammar.Parsed
import TypeStub.Proofs.Token.Placed
import TypeStub.Proofs.Token.Spacing

-- Sources that are the same but for the lines of one statement.
namespace TypeStub

namespace Parser

section

variable {ρ : Int32 → Int32 → Prop} {S T : List Token → Prop} {b : Blocks} {front back ts us : List Token}

-- Tokens that end in a break, if there are any.
def Broken (tokens : List Token) : Prop :=
  ∀ t ∈ tokens.getLast?, t.kind.isSourced = false

-- The last of the stretches in such tokens.
theorem last_stretch (h : List.Forall₂ (Token.Alike ρ) ts us) (hne : ts ≠ []) (hb : Broken ts) :
    ∃ stop front back s r, ts = front ++ s ∧ us = back ++ r ∧ Stretch ρ stop s r ∧
      List.Forall₂ (Token.Alike ρ) front back ∧ Broken front := by
  induction h with
  | nil => exact absurd rfl hne
  | @cons t u ts us ht hrest ih =>
      by_cases hmore : ts = []
      · subst hmore
        cases hrest
        exact ⟨t.kind, [], [], [t], [u], rfl, rfl, .last ht rfl (hb t rfl), .nil, by simp [Broken]⟩
      · have hbroken : Broken ts := by
          intro last hlast
          refine hb last ?_
          rw [List.getLast?_cons, show ts.getLast? = some last from hlast]
          rfl
        obtain ⟨stop, front, back, s, r, rfl, rfl, hstretch, hfront, hends⟩ := ih hmore hbroken
        cases hk : t.kind.isSourced with
        | false =>
            refine ⟨stop, t :: front, u :: back, s, r, rfl, rfl, hstretch, .cons ht hfront, ?_⟩
            intro last hlast
            cases front with
            | nil => exact Option.some.inj hlast ▸ hk
            | cons => exact hends last (by simpa using hlast)
        | true =>
            cases hfront with
            | nil =>
                exact ⟨stop, [], [], t :: s, u :: r, rfl, rfl, .cons ht hk hstretch, .nil, hends⟩
            | @cons t' u' front back ht' hfront =>
                refine ⟨stop, t :: t' :: front, u :: u' :: back, s, r, rfl, rfl, hstretch,
                  .cons ht (.cons ht' hfront), fun last hlast => hends last ?_⟩
                simpa using hlast

-- Lines that are alike may stand before the statement.
theorem Twin.before (h : List.Forall₂ (Token.Alike ρ) front back) (hb : Broken front)
    (hl : ∀ t ∈ front, t.Lexed) (hrest : Twin ρ S T (b.after front) ts us) :
    Twin ρ S T b (front ++ ts) (back ++ us) := by
  induction hn : front.length using Nat.strong_induction_on generalizing front back ts us with
  | h n ih =>
      by_cases hne : front = []
      · subst hne
        cases h
        exact hrest
      · obtain ⟨stop, first, other, s, r, rfl, rfl, hstretch, hfirst, hbroken⟩ :=
          last_stretch h hne hb
        obtain ⟨hlexed, hs⟩ := List.forall_mem_append.mp hl
        rw [Blocks.after, List.foldl_append] at hrest
        have hless : first.length < n := by
          obtain ⟨⟨body, e, rfl, -⟩, -⟩ := hstretch.ended
          rw [← hn, List.length_append, List.length_append]
          exact Nat.lt_add_of_pos_right (by simp)
        rw [List.append_assoc, List.append_assoc]
        exact ih first.length hless hfirst hbroken hlexed (.line hstretch hs hrest) rfl

-- Lines that are alike may stand after it.
theorem Twin.rest (h : List.Forall₂ (Token.Alike ρ) ts us) (hts : Stream ts) :
    Twin ρ S T b ts us := by
  obtain ⟨hl, body, e, htokens, he⟩ := hts
  have hbroken : Broken ts := by
    intro t ht
    rw [htokens, List.getLast?_concat] at ht
    rw [← Option.some.inj ht, he]
    rfl
  obtain ⟨stop, front, back, s, r, rfl, rfl, hstretch, hfront, hends⟩ :=
    last_stretch h (by simp [htokens]) hbroken
  obtain ⟨hlexed, hs⟩ := List.forall_mem_append.mp hl
  obtain ⟨⟨body', e', rfl, hstop⟩, -⟩ := hstretch.ended
  rw [← List.append_assoc] at htokens
  obtain ⟨-, hlast⟩ := List.append_inj' htokens rfl
  obtain rfl := List.singleton_inj.mp hlast
  obtain rfl := hstop.symm.trans he
  exact .before hfront hends hlexed (.last hstretch hs)

end

end Parser

namespace Blocks

section

variable {b : Blocks} {tokens more : List Token} {before after : List Nat} {marks : List TokenKind}

theorem after_append : b.after (tokens ++ more) = (b.after tokens).after more := List.foldl_append

-- Nothing but marks opens or closes a block.
theorem heads_after (h : ∀ t ∈ tokens, t.kind ≠ .indent ∧ t.kind ≠ .dedent) :
    (b.after tokens).heads = b.heads := by
  induction tokens generalizing b with
  | nil => rfl
  | cons t rest ih =>
      obtain ⟨⟨hi, hd⟩, hrest⟩ := List.forall_mem_cons.mp h
      have hstep : (b.step t.kind).heads = b.heads := by
        cases hk : t.kind <;> simp_all [step] <;> split <;> rfl
      exact (ih hrest).trans hstep

-- The blocks that are open are those of the layout.
theorem heads_marks (h : Shift before marks after) (hb : b.heads.length = before.length)
    (row column : Nat) :
    (b.after (marks.map (markToken row column))).heads.length = after.length := by
  cases h with
  | deeper => exact congrArg Nat.succ hb
  | back closed kept =>
      induction closed generalizing b with
      | nil => exact hb
      | cons width closed ih =>
          refine ih (b := b.step .dedent) ?_
          show b.heads.tail.length = _
          rw [List.length_tail, hb]
          rfl

end

end Blocks

namespace Margin

section

variable {m next last : Margin} {found : List Token}

theorem Line.heads (h : Line m found next) {b : Blocks}
    (hb : b.heads.length = m.layout.indents.length) :
    (b.after found).heads.length = next.layout.indents.length := by
  cases h with
  | ignored => exact hb
  | @scanned row column last width depth line below rest layout marks indents lone joined found
      hstart hscan =>
      obtain ⟨-, hshift⟩ := LineStart.fits_of_eq hstart
      rw [Blocks.after_append, Blocks.heads_after fun t ht => ?_]
      · exact Blocks.heads_marks hshift hb row column
      · have hsourced := scanLine_sourced ⟨row, column, line.drop column, below⟩ layout.depth
        rw [hscan] at hsourced
        rcases List.mem_append.mp ht with ht | ht
        · exact (plain_sourced (hsourced t ht)).2
        · unfold lineBreak at ht
          split at ht
          · rw [List.mem_singleton.mp ht]
            exact ⟨by simp, by simp⟩
          · cases ht

theorem Run.heads (h : Run m found last) {b : Blocks}
    (hb : b.heads.length = m.layout.indents.length) :
    (b.after found).heads.length = last.layout.indents.length := by
  induction h generalizing b with
  | refl => exact hb
  | line hline _ ih =>
      rw [Blocks.after_append]
      exact ih (hline.heads hb)

end

end Margin

end TypeStub
