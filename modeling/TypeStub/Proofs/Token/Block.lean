import TypeStub.Proofs.Token.Layout

namespace TypeStub

-- A text that begins a statement: neither blank there nor a comment.
def Opens (text : Text) : Prop := ∃ c rest, text = c :: rest ∧ Text.isBlank c = false ∧ c ≠ '#'

theorem Opens.append {text : Text} (h : Opens text) (more : Text) : Opens (text ++ more) := by
  obtain ⟨c, rest, rfl, hb, hc⟩ := h
  exact ⟨c, rest ++ more, rfl, hb, hc⟩

theorem Opens.startsAt {text : Text} (h : Opens text) (level : Nat) :
    StartsAt level (Text.spaces (4 * level) ++ text) := by
  obtain ⟨c, rest, rfl, hb, hc⟩ := h
  exact ⟨c, rest, rfl, hb, hc⟩

theorem Identifier.opens {name : Text} (h : Identifier name) : Opens name := by
  cases h with
  | @word first rest hf hm hk =>
      refine ⟨first, rest, rfl, ?_, ?_⟩
      · cases hb : Text.isBlank first with
        | false => rfl
        | true =>
            simp only [Text.isBlank, Bool.or_eq_true, beq_iff_eq] at hb
            rcases hb with (rfl | rfl) | rfl <;> exact absurd hf (by decide)
      · rintro rfl
        exact absurd hf (by decide)
  | quoted hne hb hl => exact ⟨_, _, rfl, by decide, by decide⟩

-- A line of a statement without its indentation.
structure Line (text : Text) (spellings : List Spelling) : Prop where
  opens : Opens text
  inline : Inline text
  scans : Scans text spellings
  balanced : Balanced spellings

theorem Line.of_spells {follow : Text → Prop} {text : Text} {spellings : List Spelling}
    (ho : Opens text) (hs : Spells follow text spellings) (hf : follow [])
    (hb : Balanced spellings) : Line text spellings :=
  ⟨ho, hs.inline, hs.whole hf, hb⟩

theorem inline_spaces_append {text : Text} (h : Inline text) (n : Nat) :
    Inline (Text.spaces n ++ text) := by
  have hspaces : Inline (Text.spaces n) := by
    refine ⟨fun hm => ?_, fun hl => ?_⟩
    · exact absurd (List.eq_of_mem_replicate hm) (by decide)
    · exact absurd (List.eq_of_mem_replicate (List.mem_of_getLast? hl)) (by decide)
  exact hspaces.append h

-- Lines that stand together at any level.
structure Block (lines : List Text) (spellings : List Spelling) : Prop where
  opens : ∃ first rest, lines = first :: rest ∧ Opens first
  inline : ∀ line ∈ lines, Inline line ∧ line ≠ []
  lays : ∀ level, Lays level (lines.map (Text.spaces (4 * level) ++ ·)) spellings

theorem Line.laysLine {text : Text} {spellings : List Spelling} (h : Line text spellings)
    (level : Nat) :
    LaysLine level (Text.spaces (4 * level) ++ text) (spellings ++ [sign .newline]) := by
  obtain ⟨c, rest, rfl, hb, hc⟩ := h.opens
  exact .of_scans hb hc h.scans h.balanced

theorem Line.block {text : Text} {spellings : List Spelling} (h : Line text spellings) :
    Block [text] (spellings ++ [sign .newline]) := by
  refine ⟨⟨text, [], rfl, h.opens⟩, ?_, fun level => (h.laysLine level).lays⟩
  simp only [List.mem_singleton, forall_eq]
  obtain ⟨c, rest, rfl, -⟩ := h.opens
  exact ⟨h.inline, by simp⟩

-- What follows leaves every deeper block where a block of this level begins.
theorem Block.outdented {lines : List Text} {spellings : List Spelling} (h : Block lines spellings)
    (level : Nat) (below : List Text) :
    Outdented level (lines.map (Text.spaces (4 * level) ++ ·) ++ below) := by
  obtain ⟨first, rest, rfl, ho⟩ := h.opens
  have hstart := ho.startsAt level
  rw [List.map_cons, List.cons_append]
  cases hl : Text.spaces (4 * level) ++ first with
  | nil =>
      obtain ⟨c, more, rfl, -⟩ := ho
      simp at hl
  | cons d more =>
      rw [hl] at hstart
      exact ⟨level, Nat.le_refl _, hstart⟩

theorem Block.append {lines more : List Text} {spellings others : List Spelling}
    (h : Block lines spellings) (hm : Block more others) :
    Block (lines ++ more) (spellings ++ others) := by
  refine ⟨?_, fun line hl => ?_, fun level => ?_⟩
  · obtain ⟨first, rest, rfl, ho⟩ := h.opens
    exact ⟨first, rest ++ more, rfl, ho⟩
  · rcases List.mem_append.mp hl with hl | hl
    · exact h.inline line hl
    · exact hm.inline line hl
  · rw [List.map_append]
    exact (h.lays level).append (hm.lays level) fun below _ => hm.outdented level below

theorem Block.flatMap {ι : Type} {lines : ι → List Text} {spelled : ι → List Spelling}
    {is : List ι} (hne : is ≠ []) (h : ∀ i ∈ is, Block (lines i) (spelled i)) :
    Block (is.flatMap lines) (is.flatMap spelled) := by
  induction is with
  | nil => exact absurd rfl hne
  | cons i rest ih =>
      have hfirst := h i (by simp)
      cases rest with
      | nil => simpa using hfirst
      | cons next more => exact hfirst.append (ih (by simp) fun j hj => h j (by simp [hj]))

theorem spaces_add (m n : Nat) : Text.spaces (m + n) = Text.spaces m ++ Text.spaces n :=
  List.replicate_append_replicate.symm

-- A line and the block under it.
theorem Line.nest {header : Text} {spellings inner : List Spelling} {lines : List Text}
    (hh : Line header spellings) (hb : Block lines inner) :
    Block (header :: lines.map (Text.spaces 4 ++ ·))
      (spellings ++ (sign .newline :: sign .indent :: (inner ++ [sign .dedent]))) := by
  have hdeeper : ∀ level, (lines.map (Text.spaces 4 ++ ·)).map (Text.spaces (4 * level) ++ ·) =
      lines.map (Text.spaces (4 * (level + 1)) ++ ·) := by
    intro level
    rw [List.map_map]
    refine List.map_congr_left fun line _ => ?_
    rw [Function.comp_apply, ← List.append_assoc, ← spaces_add, Nat.mul_succ]
  refine ⟨⟨header, _, rfl, hh.opens⟩, fun line hl => ?_, fun level => ?_⟩
  · rcases List.mem_cons.mp hl with rfl | hl
    · obtain ⟨c, rest, rfl, -⟩ := hh.opens
      exact ⟨hh.inline, by simp⟩
    · obtain ⟨inside, hm, rfl⟩ := List.mem_map.mp hl
      exact ⟨inline_spaces_append (hb.inline inside hm).1 4, by simp [Text.spaces]⟩
  · obtain ⟨first, rest, rfl, ho⟩ := hb.opens
    have hlays := Lays.block (hh.laysLine level) (ho.startsAt (level + 1)) (hb.lays (level + 1))
    rw [List.map_cons, hdeeper, List.map_cons]
    rw [List.append_assoc] at hlays
    exact hlays

end TypeStub
