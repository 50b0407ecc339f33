import TypeStub.Proofs.Grammar.TypeBalanced
import TypeStub.Proofs.Grammar.TypedConstant
import TypeStub.Proofs.Token.Placed

-- The spellings of a name that gets a type and no value, as they are written.
namespace TypeStub

open Grammar

-- The lines of such a name: with a type comment on its line or on the next one, or with a colon
-- before the type, and then with or without a placeholder for the value.
inductive ConstantLines (pad name type : Text) : List Text → Prop
  | comment : ConstantLines pad name type [pad ++ (name ++ (" = ...  # type: " ++ type))]
  | commentBelow {blanks : Text} : Blanks blanks →
      ConstantLines pad name type [pad ++ (name ++ " = ..."), blanks ++ ("# type: " ++ type)]
  | hint : ConstantLines pad name type [pad ++ (name ++ (": " ++ type))]
  | placeholder : ConstantLines pad name type [pad ++ (name ++ (": " ++ (type ++ " = ...")))]

section

variable {pad name type text rest : Text} {words more : List Spelling}

theorem scans_named (hname : Identifier name) (hrest : Delimited rest) (h : Scans rest more) :
    Scans (name ++ rest) ((.ident, name) :: more) :=
  (spells_identifier hname).scans _ _ hrest h

theorem scans_ellipsis (h : Scans rest more) :
    Scans (" = ..." ++ rest) (sign .equal :: sign .ellipsis :: more) := by
  have hvalue : Scans ('.' :: (".." ++ rest)) (sign .ellipsis :: more) := .token '.' ".." rfl h
  have hequal : Scans ('=' :: ([] ++ ' ' :: '.' :: (".." ++ rest)))
      (sign .equal :: sign .ellipsis :: more) := .token '=' [] rfl hvalue.blank
  exact hequal.blank

theorem scans_typeComment (h : Scans rest more) :
    Scans ("# type: " ++ rest) (sign .typeComment :: more) := by
  have hcomment : Scans ('#' :: (" type:" ++ ' ' :: rest)) (sign .typeComment :: more) :=
    .token '#' " type:" rfl h.blank
  exact hcomment

theorem scans_colon (h : Scans rest more) : Scans (": " ++ rest) (sign .colon :: more) := by
  have hcolon : Scans (':' :: ([] ++ ' ' :: rest)) (sign .colon :: more) :=
    .token ':' [] rfl h.blank
  exact hcolon

theorem lineStart_typeComment (hpad : Blanks pad) (rest : Text) (indents : List Nat) :
    lineStart (pad ++ ("# type: " ++ rest)) ⟨0, false, indents⟩ =
      .scan pad.length [] indents true := by
  have hstart := lineStart_pad hpad (c := '#') rfl (" type: " ++ rest) indents
  rwa [if_pos rfl] at hstart

variable {indents inner : List Nat} {marks : List TokenKind} {row : Nat} {below lines : List Text}
  {loneComment : Bool}

-- A line that scans to its end, with its tokens on its row.
theorem run_line (hs : Scans text words) (hd : Balanced words)
    (hstart : lineStart (pad ++ text) ⟨0, false, indents⟩ =
      .scan pad.length marks inner loneComment) (row : Nat) (below : List Text) :
    ∃ tokens, tokens.map Token.spelling = words ++ [sign .newline] ∧
      (∀ t ∈ tokens, t.line = row + 1) ∧
      Margin.Line ⟨row, (pad ++ text) :: below, ⟨0, false, indents⟩⟩
        (marks.map (markToken row pad.length) ++ tokens) ⟨row + 1, below, ⟨0, false, inner⟩⟩ := by
  obtain ⟨tokens, ht, hline⟩ := Margin.line_of_scans hs hd pad row below
  refine ⟨tokens, ht, fun t htoken => ?_, hline hstart⟩
  obtain ⟨hlow, hhigh⟩ := (hline hstart).rows t (List.mem_append_right _ htoken)
  exact Nat.le_antisymm hhigh hlow

-- Tokens by what stands before the type, the type, and what stands after it.
theorem isTyped_of_spelling {front back : List Spelling} {tokens : List Token} {line : Nat}
    (h : tokens.map Token.spelling = (.ident, name) :: (front ++ (words ++ back)))
    (haround : ∀ opening tail, opening.map Token.spelling = front →
      tail.map Token.spelling = back → Around opening tail)
    (hline : ∀ t ∈ tokens.drop (front.length + 1), t.line = line) :
    IsTyped name words line tokens := by
  obtain ⟨target, rest, rfl, htarget, hrest⟩ := List.map_eq_cons_iff.mp h
  obtain ⟨opening, rest, rfl, hopening, hrest⟩ := List.map_eq_append_iff.mp hrest
  obtain ⟨span, tail, rfl, hspan, htail⟩ := List.map_eq_append_iff.mp hrest
  obtain ⟨hkind, htext⟩ := Prod.mk.inj htarget
  rw [← hopening, List.length_map, List.drop_succ_cons, List.drop_left] at hline
  exact ⟨target, opening, span, tail, rfl, hkind, htext, haround opening tail hopening htail,
    hspan, hline⟩

theorem one_of_spelling {kind : TokenKind} {tokens : List Token}
    (h : tokens.map Token.spelling = [sign kind]) : ∃ t, tokens = [t] ∧ t.kind = kind := by
  obtain ⟨t, rfl, ht⟩ := List.map_eq_singleton_iff.mp h
  exact ⟨t, rfl, congrArg Prod.fst ht⟩

theorem cons_of_spelling {kind : TokenKind} {tokens : List Token}
    (h : tokens.map Token.spelling = sign kind :: more) :
    ∃ t rest, tokens = t :: rest ∧ t.kind = kind ∧ rest.map Token.spelling = more := by
  obtain ⟨t, rest, rfl, ht, hrest⟩ := List.map_eq_cons_iff.mp h
  exact ⟨t, rest, rfl, congrArg Prod.fst ht, hrest⟩

theorem around_hint {opening tail : List Token} (ho : opening.map Token.spelling = [sign .colon])
    (ht : tail.map Token.spelling = [sign .newline]) : Around opening tail := by
  obtain ⟨_, rfl, hcolon⟩ := one_of_spelling ho
  obtain ⟨_, rfl, hlast⟩ := one_of_spelling ht
  exact .hint hcolon hlast

theorem around_placeholder {opening tail : List Token}
    (ho : opening.map Token.spelling = [sign .colon])
    (ht : tail.map Token.spelling = [sign .equal, sign .ellipsis, sign .newline]) :
    Around opening tail := by
  obtain ⟨_, rfl, hcolon⟩ := one_of_spelling ho
  obtain ⟨_, _, rfl, hequal, ht⟩ := cons_of_spelling ht
  obtain ⟨_, _, rfl, hvalue, ht⟩ := cons_of_spelling ht
  obtain ⟨_, rfl, hlast⟩ := one_of_spelling ht
  exact .placeholder hcolon hequal hvalue hlast

theorem around_comment {opening tail : List Token}
    (ho : opening.map Token.spelling = [sign .equal, sign .ellipsis, sign .typeComment])
    (ht : tail.map Token.spelling = [sign .newline]) : Around opening tail := by
  obtain ⟨_, _, rfl, hequal, ho⟩ := cons_of_spelling ho
  obtain ⟨_, _, rfl, hvalue, ho⟩ := cons_of_spelling ho
  obtain ⟨_, rfl, hcomment⟩ := one_of_spelling ho
  obtain ⟨_, rfl, hlast⟩ := one_of_spelling ht
  exact .comment hequal hvalue hcomment hlast

theorem around_commentBelow {opening tail : List Token}
    (ho : opening.map Token.spelling =
      [sign .equal, sign .ellipsis, sign .newline, sign .typeComment])
    (ht : tail.map Token.spelling = [sign .newline]) : Around opening tail := by
  obtain ⟨_, _, rfl, hequal, ho⟩ := cons_of_spelling ho
  obtain ⟨_, _, rfl, hvalue, ho⟩ := cons_of_spelling ho
  obtain ⟨_, _, rfl, hnewline, ho⟩ := cons_of_spelling ho
  obtain ⟨_, rfl, hcomment⟩ := one_of_spelling ho
  obtain ⟨_, rfl, hlast⟩ := one_of_spelling ht
  exact .commentBelow hequal hvalue hnewline hcomment hlast

theorem run_single {m next : Margin} {found : List Token} (h : Margin.Line m found next) :
    Margin.Run m found next := by
  have hrun := Margin.Run.line h (.refl next)
  rwa [List.append_nil] at hrun

-- A name that gets its type on its own line.
theorem run_typed {front back : List Spelling}
    (hs : Scans text ((.ident, name) :: (front ++ (words ++ back))))
    (hfront : Balanced front) (hd : Balanced words) (hback : Balanced back)
    (haround : ∀ opening tail, opening.map Token.spelling = front →
      tail.map Token.spelling = back ++ [sign .newline] → Around opening tail)
    (hstart : lineStart (pad ++ text) ⟨0, false, indents⟩ = .scan pad.length marks inner false)
    (row : Nat) (below : List Text) :
    ∃ site, IsTyped name words (row + 1) site ∧ (site.headD Token.stop).line = row + 1 ∧
      Margin.Run ⟨row, (pad ++ text) :: below, ⟨0, false, indents⟩⟩
        (marks.map (markToken row pad.length) ++ site) ⟨row + 1, below, ⟨0, false, inner⟩⟩ := by
  have hall : Balanced ((.ident, name) :: (front ++ (words ++ back))) :=
    .cons (fun _ => rfl) (hfront.append (hd.append hback))
  obtain ⟨site, hspelling, hlines, hline⟩ := run_line hs hall hstart row below
  have hsplit : site.map Token.spelling =
      (.ident, name) :: (front ++ (words ++ (back ++ [sign .newline]))) := by
    rw [hspelling]
    simp
  refine ⟨site, ?_, ?_, run_single hline⟩
  · exact isTyped_of_spelling hsplit haround fun t ht => hlines t (List.mem_of_mem_drop ht)
  · obtain ⟨target, rest, rfl, -⟩ := List.map_eq_cons_iff.mp hsplit
    exact hlines target List.mem_cons_self

-- A name that gets its type in a comment on the line below.
theorem run_typedBelow {blanks : Text} (hs : Scans text [(.ident, name), sign .equal, sign .ellipsis])
    (hblanks : Blanks blanks) (htype : Scans type words) (hd : Balanced words)
    (hstart : lineStart (pad ++ text) ⟨0, false, indents⟩ = .scan pad.length marks inner false)
    (row : Nat) (below : List Text) :
    ∃ site, IsTyped name words (row + 2) site ∧ (site.headD Token.stop).line = row + 1 ∧
      Margin.Run ⟨row, (pad ++ text) :: (blanks ++ ("# type: " ++ type)) :: below,
          ⟨0, false, indents⟩⟩
        (marks.map (markToken row pad.length) ++ site) ⟨row + 2, below, ⟨0, false, inner⟩⟩ := by
  obtain ⟨front, hfront, hlines, hfirst⟩ := run_line hs (fun _ => rfl) hstart row
    ((blanks ++ ("# type: " ++ type)) :: below)
  obtain ⟨back, hback, hlines', hsecond⟩ := run_line (scans_typeComment htype)
    (.cons (fun _ => rfl) hd) (lineStart_typeComment hblanks type inner) (row + 1) below
  have hsplit : (front ++ back).map Token.spelling = (.ident, name) ::
      ([sign .equal, sign .ellipsis, sign .newline, sign .typeComment] ++
        (words ++ [sign .newline])) := by
    rw [List.map_append, hfront, hback]
    simp
  have hlength : front.length = 4 := by simpa using congrArg List.length hfront
  refine ⟨front ++ back, isTyped_of_spelling hsplit (fun _ _ => around_commentBelow) ?_, ?_, ?_⟩
  · intro t ht
    have hdrop : (front ++ back).drop (4 + 1) = back.drop 1 := by
      rw [← hlength, List.drop_length_add_append]
    exact hlines' t (List.mem_of_mem_drop (hdrop ▸ ht))
  · obtain ⟨target, rest, rfl, -⟩ := List.map_eq_cons_iff.mp hfront
    exact hlines target List.mem_cons_self
  · have hrun := (run_single hfirst).concat hsecond
    rw [List.append_assoc] at hrun
    exact hrun

-- What the lines of such a name are to the tokenizer.
theorem ConstantLines.run (h : ConstantLines pad name type lines) (hpad : Blanks pad)
    (hname : Identifier name) (htype : OneLine type words) (hd : Balanced words)
    (hm : indentMarks (indentWidth pad) indents = (marks, inner, true)) (row : Nat)
    (below : List Text) :
    ∃ site, IsTyped name words (row + lines.length) site ∧
      (site.headD Token.stop).line = row + 1 ∧
      Margin.Run ⟨row, lines ++ below, ⟨0, false, indents⟩⟩
        (marks.map (markToken row pad.length) ++ site)
        ⟨row + lines.length, below, ⟨0, false, inner⟩⟩ := by
  have hwhole : Scans type (words ++ []) := by
    have hscan := htype.scans Lexeme.separates_nil .nil
    rwa [List.append_nil type] at hscan
  have hstart (text : Text) : lineStart (pad ++ (name ++ text)) ⟨0, false, indents⟩ =
      .scan pad.length marks inner false := lineStart_opens hpad (hname.opens.append text) hm
  cases h with
  | hint =>
      have hs : Scans _ ((.ident, name) :: ([sign .colon] ++ (words ++ []))) :=
        scans_named hname (delimited_cons (by decide)) (scans_colon hwhole)
      exact run_typed hs (fun _ => rfl) hd .nil (fun _ _ => around_hint) (hstart _) row below
  | placeholder =>
      have htail : Scans (type ++ " = ...") (words ++ [sign .equal, sign .ellipsis]) :=
        htype.scans (Lexeme.separates_blank _) (scans_ellipsis .nil)
      have hs : Scans _
          ((.ident, name) :: ([sign .colon] ++ (words ++ [sign .equal, sign .ellipsis]))) :=
        scans_named hname (delimited_cons (by decide)) (scans_colon htail)
      exact run_typed hs (fun _ => rfl) hd (fun _ => rfl) (fun _ _ => around_placeholder)
        (hstart _) row below
  | comment =>
      have htail := scans_ellipsis (scans_typeComment hwhole).blank.blank
      have hs : Scans _ ((.ident, name) ::
          ([sign .equal, sign .ellipsis, sign .typeComment] ++ (words ++ []))) :=
        scans_named hname (delimited_cons (by decide)) htail
      exact run_typed hs (fun _ => rfl) hd .nil (fun _ _ => around_comment) (hstart _) row below
  | @commentBelow blanks hblanks =>
      have hs := scans_named hname (delimited_cons (by decide)) (scans_ellipsis .nil)
      rw [List.append_nil] at hwhole
      exact run_typedBelow hs hblanks hwhole hd (hstart _) row below

end

end TypeStub
