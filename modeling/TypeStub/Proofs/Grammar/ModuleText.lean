import TypeStub.Proofs.Grammar.StatementText

-- The text of a module in sections of statements, as it is written and as it is read.
namespace TypeStub.Grammar

open TypeStub.Parser

section

variable {statements : List StmtText}

theorem reads_module (h : ∀ s ∈ statements, s.Readable) :
    Reads module (statements.flatMap StmtText.spelling)
      (fun s => (headSpelling s).1 = .endOfFile) (List.Forall₂ StmtText.Says statements) := by
  have hlead : Reads (do return (← peek).kind = .endOfFile : Parser Bool) []
      (fun s => (headSpelling s).1 ≠ .endOfFile) (· = false) := by
    refine .peek fun token ⟨s, hs, ht⟩ => .pure ?_
    have hk : token.kind = (headSpelling s).1 := congrArg Prod.fst ht
    simpa [hk] using hs
  have hfinal : Reads (do return (← peek).kind = .endOfFile : Parser Bool) []
      (fun s => (headSpelling s).1 = .endOfFile) (· = true) := by
    refine .peek fun token ⟨s, hs, ht⟩ => .pure ?_
    have hk : token.kind = .endOfFile := (congrArg Prod.fst ht).trans hs
    simp [hk]
  have hitem : ∀ s ∈ statements, Reads (statement nestingLimit .module) s.spelling
      (fun _ => True) (Stated s.Says) := fun s hs => reads_stmt (h s hs)
  have hstart : ∀ s ∈ statements, ∀ more, (headSpelling (s.spelling ++ more)).1 ≠ .endOfFile := by
    intro s _ more he
    have hkind := s.kind_spelling more
    rw [he] at hkind
    exact absurd hkind (by decide)
  have hall := Reads.repeatUntil hlead hitem hfinal (fun s hs more _ => hstart s hs more)
    (fun _ _ _ => trivial) (fun _ _ => trivial) fun s hs he => by
      rw [List.nil_append] at he
      have hempty := hstart s hs []
      rw [he] at hempty
      exact hempty rfl
  simp only [List.nil_append, List.append_nil] at hall
  exact hall.bindPure fun _ hread => forall₂_stated hread

end

-- The lines of a statement with the empty ones under it.
def StmtText.lineGroup (s : StmtText) : List Text := s.lines ++ List.replicate s.gap []

-- The lines of sections, with an empty one between.
def sectionLines : List (List StmtText) → List Text
  | [] => []
  | [last] => last.flatMap StmtText.lineGroup
  | first :: rest => first.flatMap StmtText.lineGroup ++ [] :: sectionLines rest

-- The text of statements, one below the other.
def sectionText (statements : List StmtText) : Text :=
  Text.joinWith "\n" (statements.flatMap StmtText.lineGroup)

section

variable {core after : List Text} {spellings more : List Spelling}

theorem joinWith_append {separator : Text} {parts more : List Text} (hp : parts ≠ [])
    (hm : more ≠ []) : Text.joinWith separator (parts ++ more) =
      Text.joinWith separator parts ++ separator ++ Text.joinWith separator more := by
  obtain ⟨next, others, rfl⟩ := List.exists_cons_of_ne_nil hm
  induction parts with
  | nil => exact absurd rfl hp
  | cons first rest ih =>
      cases rest with
      | nil => rw [List.singleton_append, Text.joinWith_cons, Text.joinWith_singleton]
      | cons second rest =>
          rw [List.cons_append, List.cons_append, Text.joinWith_cons, Text.joinWith_cons,
            ← List.cons_append, ih (by simp)]
          simp only [List.append_assoc]

-- Lines of the top level with such tokens, the last of them not empty.
structure Solid (lines : List Text) (spellings : List Spelling) : Prop where
  lays : Lays 0 lines spellings
  outdented : ∀ below, Outdented 0 (lines ++ below)
  inline : ∀ line ∈ lines, Inline line
  last : ∃ line, lines.getLast? = some line ∧ line ≠ []

theorem solid_block (h : Block core spellings) : Solid core spellings where
  lays := by
    have hlays := h.lays 0
    simpa [Text.spaces] using hlays
  outdented below := by
    have hout := h.outdented 0 below
    simpa [Text.spaces] using hout
  inline line hl := (h.inline line hl).1
  last := by
    obtain ⟨first, rest, hcons, -⟩ := h.opens
    have hne : core ≠ [] := by simp [hcons]
    exact ⟨core.getLast hne, List.getLast?_eq_some_getLast hne, (h.inline _ (core.getLast_mem hne)).2⟩

theorem lays_blanks (n : Nat) : Lays 0 (List.replicate n []) [] := by
  induction n with
  | zero => exact fun row _ _ => ⟨[], row, rfl, rfl⟩
  | succ n ih =>
      refine (Lays.blank 0).append ih fun below hb => ?_
      clear ih
      induction n with
      | zero => exact hb
      | succ n ih => exact ih

-- Empty lines may stand between.
theorem Solid.append (h : Solid core spellings) (ha : Solid after more) (n : Nat) :
    Solid (core ++ (List.replicate n [] ++ after)) (spellings ++ more) where
  lays := by
    have hrest := (lays_blanks n).append ha.lays fun below _ => ha.outdented below
    have hout : ∀ (k : Nat) (below : List Text),
        Outdented 0 (List.replicate k [] ++ (after ++ below)) := by
      intro k below
      induction k with
      | zero => exact ha.outdented below
      | succ k ih => exact ih
    refine h.lays.append hrest fun below _ => ?_
    rw [List.append_assoc]
    exact hout n below
  outdented below := by
    rw [List.append_assoc]
    exact h.outdented _
  inline line hl := by
    simp only [List.mem_append] at hl
    rcases hl with hl | hl | hl
    · exact h.inline line hl
    · rw [List.eq_of_mem_replicate hl]
      decide
    · exact ha.inline line hl
  last := by
    obtain ⟨line, hl, hne⟩ := ha.last
    exact ⟨line, by simp [List.getLast?_append, hl], hne⟩

-- Such lines, and maybe an empty one at the end.
def LaidOut (lines : List Text) (spellings : List Spelling) : Prop :=
  ∃ core n, n ≤ 1 ∧ lines = core ++ List.replicate n [] ∧ Solid core spellings

theorem LaidOut.append {lines others : List Text} (h : LaidOut lines spellings)
    (ho : LaidOut others more) (n : Nat) :
    LaidOut (lines ++ (List.replicate n [] ++ others)) (spellings ++ more) := by
  obtain ⟨core, k, -, rfl, hcore⟩ := h
  obtain ⟨after, m, hm, rfl, hafter⟩ := ho
  refine ⟨_, m, hm, ?_, hcore.append hafter (k + n)⟩
  rw [List.replicate_add]
  simp only [List.append_assoc]

theorem laidOut_stmt {s : StmtText} (h : s.Readable) : LaidOut s.lineGroup s.spelling := by
  refine ⟨s.lines, s.gap, ?_, rfl, solid_block (block_stmt h)⟩
  cases s <;> simp [StmtText.gap]

theorem laidOut_statements {statements : List StmtText} (hne : statements ≠ [])
    (h : ∀ s ∈ statements, s.Readable) :
    LaidOut (statements.flatMap StmtText.lineGroup) (statements.flatMap StmtText.spelling) := by
  induction statements with
  | nil => exact absurd rfl hne
  | cons s rest ih =>
      have hfirst := laidOut_stmt (h s (by simp))
      cases rest with
      | nil => simpa using hfirst
      | cons next others =>
          exact hfirst.append (ih (by simp) fun t ht => h t (by simp [ht])) 0

end

section

variable {sections : List (List StmtText)}

theorem laidOut_sections (hne : sections ≠ []) (hs : [] ∉ sections)
    (h : ∀ s ∈ sections.flatten, s.Readable) :
    LaidOut (sectionLines sections) (sections.flatten.flatMap StmtText.spelling) := by
  induction sections with
  | nil => exact absurd rfl hne
  | cons statements rest ih =>
      rw [List.mem_cons, not_or] at hs
      have hfirst := laidOut_statements (Ne.symm hs.1)
        fun s hm => h s (List.mem_append_left _ hm)
      cases rest with
      | nil => simpa [sectionLines] using hfirst
      | cons next more =>
          have hrest := ih (by simp) hs.2 fun s hm => h s (List.mem_append_right _ hm)
          rw [List.flatten_cons, List.flatMap_append]
          exact hfirst.append hrest 1

theorem lineGroup_ne_nil (s : StmtText) : s.lineGroup ≠ [] := by
  cases s with
  | member m =>
      cases m with
      | constant => simp [StmtText.lineGroup, StmtText.lines, MemberText.lines]
      | definition => simp [StmtText.lineGroup, StmtText.lines, MemberText.lines, DefText.lines]
  | _ => simp [StmtText.lineGroup, StmtText.lines]

theorem flatMap_lineGroup_ne_nil {statements : List StmtText} (h : statements ≠ []) :
    statements.flatMap StmtText.lineGroup ≠ [] := by
  obtain ⟨s, rest, rfl⟩ := List.exists_cons_of_ne_nil h
  rw [List.flatMap_cons]
  exact List.append_ne_nil_of_left_ne_nil (lineGroup_ne_nil s) _

-- The texts of sections, with an empty line between, are their lines joined.
theorem joinWith_sections (hs : [] ∉ sections) :
    Text.joinWith "\n\n" (sections.map sectionText) =
      Text.joinWith "\n" (sectionLines sections) := by
  induction sections with
  | nil => rfl
  | cons statements rest ih =>
      rw [List.mem_cons, not_or] at hs
      cases rest with
      | nil => exact Text.joinWith_singleton _ _
      | cons next more =>
          have hbreak : ("\n\n" : Text) = "\n" ++ "\n" := by decide
          have hrest : sectionLines (next :: more) ≠ [] := by
            have hnext : next ≠ [] := fun h => hs.2 (by simp [h])
            cases more with
            | nil => exact flatMap_lineGroup_ne_nil hnext
            | cons => simp [sectionLines]
          have htail : Text.joinWith "\n" ([] :: sectionLines (next :: more)) =
              "\n" ++ Text.joinWith "\n" (sectionLines (next :: more)) := by
            have hsplit := @joinWith_append "\n" [[]] (sectionLines (next :: more)) (by simp) hrest
            rwa [Text.joinWith_singleton, List.nil_append] at hsplit
          have hlines : sectionLines (statements :: next :: more) =
              statements.flatMap StmtText.lineGroup ++ [] :: sectionLines (next :: more) := rfl
          have hmore := ih hs.2
          rw [List.map_cons] at hmore
          rw [List.map_cons, List.map_cons, Text.joinWith_cons, hmore, hlines,
            joinWith_append (flatMap_lineGroup_ne_nil (Ne.symm hs.1)) (by simp), htail, hbreak]
          simp only [List.append_assoc]
          rfl

-- The sections of a text, with an empty line between, are the statements that it is parsed as.
theorem parseSource_sections (hs : [] ∉ sections) (h : ∀ s ∈ sections.flatten, s.Readable) :
    ∃ body, parseSource (Text.joinWith "\n\n" (sections.map sectionText)) = .ok body ∧
      List.Forall₂ StmtText.Says sections.flatten body := by
  rw [joinWith_sections hs]
  have hsource : ∃ core : List Text, sourceLines (Text.joinWith "\n" (sectionLines sections)) = core ∧
      Lays 0 core (sections.flatten.flatMap StmtText.spelling) := by
    by_cases hne : sections = []
    · subst hne
      exact ⟨[], rfl, lays_blanks 0⟩
    · obtain ⟨core, n, hn, hlines, hcore⟩ := laidOut_sections hne hs h
      obtain ⟨line, hlast, hline⟩ := hcore.last
      have hsplit := splitLines_joinWith (fun line hl => (hcore.inline line hl).1)
        (by simpa [hlast] using hline) (by rintro rfl; simp at hlast)
      refine ⟨core, sourceLines_eq ?_ hcore.inline, hcore.lays⟩
      rw [hlines]
      obtain rfl | rfl : n = 0 ∨ n = 1 := by omega
      · simpa using hsplit.1
      · exact hsplit.2
  obtain ⟨core, hcore, hlays⟩ := hsource
  obtain ⟨tokens, last, htokens, hspelled, hlast⟩ :=
    List.map_eq_append_iff.mp (tokenize_spelling hcore hlays)
  obtain ⟨body, hmodule, hbody⟩ := reads_module h tokens last hspelled (by rw [hlast]; rfl)
  refine ⟨body, ?_, hbody⟩
  rw [hcore] at htokens
  simp only [parseSource, parseLines, parseTokens, hcore, htokens, hmodule]

end

end TypeStub.Grammar
