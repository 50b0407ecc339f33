import TypeStub.Proofs.Token.Margin
import TypeStub.Token.Reader

-- A reader forgets what it read before the source that it holds.
namespace TypeStub

-- The source and the name that a request hands over.
def ReaderRequest.pushed? : ReaderRequest → Option (Text × Text)
  | push source title => some (source, title)
  | tokens | line _ | name => none

namespace Reader

-- The last source among requests.
def lastPush (requests : List ReaderRequest) : Option (Text × Text) :=
  (requests.filterMap ReaderRequest.pushed?).getLast?

-- A reader that has been given one source, or nothing at all.
def ofPush : Option (Text × Text) → Reader
  | none => fresh
  | some (source, name) => fresh.push source name

-- What is left to a reader that comes to the lines ahead.
def margin (reader : Reader) (indents : List Nat) (ahead : List Text) : Margin :=
  ⟨reader.row, ahead, ⟨reader.depth, reader.joined, indents⟩⟩

-- A reader that holds a source. Its tokens are those of the source if it has read it, and they are
-- kept then. Where it stands, what is open there and whether the line is continued is left open.
structure Holds (reader : Reader) (last : Option (Text × Text)) : Prop where
  name : reader.name = (ofPush last).name
  lines : reader.lines = (ofPush last).lines
  found : reader.finished = true → reader.found = tokenize reader.lines

section

variable {reader : Reader} {last : Option (Text × Text)}

-- A scan puts the tokens that are still to come behind those found so far.
theorem found_scan (reader : Reader) (indents : List Nat) (ahead : List Text) :
    (reader.scan indents ahead).found = reader.found ++ (reader.margin indents ahead).tokens := by
  fun_induction scan reader indents ahead with
  | case1 reader indents =>
      have hstops : Margin.Stops (reader.margin indents []) _ := .done
      rw [hstops.tokens_eq]
      rfl
  | case2 reader indents line below hstart ih =>
      have hline : Margin.Line (reader.margin indents (line :: below)) [] _ := .ignored hstart
      rw [ih, hline.tokens_eq]
      rfl
  | case3 reader indents line below column marks hstart =>
      have hstops : Margin.Stops (reader.margin indents (line :: below)) _ := .misaligned hstart
      rw [hstops.tokens_eq]
      rfl
  | case4 reader indents line below column marks kept lone hstart marked tokens cause row at_ hscan =>
      have hstops : Margin.Stops (reader.margin indents (line :: below)) _ := .failed hstart hscan
      rw [hstops.tokens_eq, ← List.append_assoc]
      rfl
  | case5 reader indents line below column marks kept lone hstart marked tokens row width rest depth
      joined hscan _ newline ih =>
      have hline : Margin.Line (reader.margin indents (line :: below)) _ _ := .scanned hstart hscan
      have hbreak : newline = Margin.lineBreak lone row width depth joined := dite_eq_ite
      rw [ih, hline.tokens_eq, ← hbreak, ← List.append_assoc, ← List.append_assoc]
      rfl

-- A scan changes neither the source nor what is known to be read.
theorem source_scan (reader : Reader) (indents : List Nat) (ahead : List Text) :
    (reader.scan indents ahead).name = reader.name ∧
      (reader.scan indents ahead).lines = reader.lines ∧
      (reader.scan indents ahead).finished = reader.finished := by
  fun_induction scan reader indents ahead with
  | case1 => exact ⟨rfl, rfl, rfl⟩
  | case2 _ _ _ _ _ ih => exact ih
  | case3 => exact ⟨rfl, rfl, rfl⟩
  | case4 => exact ⟨rfl, rfl, rfl⟩
  | case5 _ _ _ _ _ _ _ _ _ _ _ _ _ _ _ _ _ _ _ ih => exact ih

-- Whatever a reader has read before, it reads its source from the first line with nothing open.
theorem Holds.build (h : reader.Holds last) :
    reader.build.Holds last ∧ reader.build.found = tokenize (ofPush last).lines := by
  by_cases hfinished : reader.finished = true
  · rw [Reader.build, if_pos hfinished]
    exact ⟨h, h.lines ▸ h.found hfinished⟩
  · rw [Reader.build, if_neg hfinished]
    have hfound : (reader.restart.scan [] reader.lines).found = tokenize reader.lines :=
      found_scan reader.restart [] reader.lines
    obtain ⟨hname, hlines, -⟩ := source_scan reader.restart [] reader.lines
    refine ⟨⟨hname.trans h.name, hlines.trans h.lines, fun _ => ?_⟩, h.lines ▸ hfound⟩
    exact hfound.trans (congrArg tokenize hlines.symm)

theorem holds_ofPush (last : Option (Text × Text)) : (ofPush last).Holds last := by
  refine ⟨rfl, rfl, fun hfinished => ?_⟩
  cases last <;> cases hfinished

-- A request is answered as by a reader that was given the last source only, and what it leaves is a
-- reader of the last source again.
theorem Holds.answer (h : reader.Holds last) (request : ReaderRequest) :
    (reader.answer request).1 = ((ofPush last).answer request).1 ∧
      (reader.answer request).2.Holds (request.pushed?.or last) := by
  cases request with
  | push source title => exact ⟨rfl, rfl, rfl, fun hfinished => nomatch hfinished⟩
  | tokens =>
      obtain ⟨hbuilt, hfound⟩ := h.build
      refine ⟨congrArg ReaderAnswer.tokens ?_, hbuilt⟩
      exact hfound.trans (holds_ofPush last).build.2.symm
  | line number =>
      refine ⟨congrArg ReaderAnswer.text ?_, h⟩
      rw [Reader.line, Reader.line, h.lines]
  | name => exact ⟨congrArg ReaderAnswer.text h.name, h⟩

theorem lastPush_cons (request : ReaderRequest) (requests : List ReaderRequest) :
    lastPush (request :: requests) = (lastPush requests).or request.pushed? := by
  unfold lastPush
  cases hpushed : request.pushed? with
  | none => rw [List.filterMap_cons_none hpushed, Option.or_none]
  | some source => rw [List.filterMap_cons_some hpushed, List.getLast?_cons, Option.or_some]

-- After any requests, the next one is answered for the last source among them.
theorem Holds.run (h : reader.Holds last) (before : List ReaderRequest) (request : ReaderRequest)
    (after : List ReaderRequest) :
    (reader.run (before ++ request :: after))[before.length]? =
      some ((ofPush ((lastPush before).or last)).answer request).1 := by
  induction before generalizing reader last with
  | nil => exact congrArg some (h.answer request).1
  | cons first rest ih =>
      rw [lastPush_cons, Option.or_assoc]
      exact ih (h.answer first).2

theorem lastPush_append_queries {before between : List ReaderRequest} (h : lastPush between = none)
    (request : ReaderRequest) (hrequest : request.pushed? = none) :
    lastPush (before ++ request :: between) = lastPush before := by
  have hbetween := List.getLast?_eq_none_iff.mp h
  rw [lastPush, List.filterMap_append, List.filterMap_cons_none hrequest, hbetween,
    List.append_nil, lastPush]

-- A reader forgets. Every request is answered as by a reader that was given the last source only,
-- whatever was read before and wherever the reading stopped: the tokens are those of that source, and
-- the lines and the name are its own. A reader without a source has the token of the end. The tokens
-- stay the same until another source is given.
theorem run_forgets :
    (∀ (before : List ReaderRequest) (request : ReaderRequest) (after : List ReaderRequest),
      (fresh.run (before ++ request :: after))[before.length]? =
        some ((ofPush (lastPush before)).answer request).1) ∧
    (∀ source name number,
      ((fresh.push source name).answer .tokens).1 = .tokens (tokenize (sourceLines source)) ∧
      ((fresh.push source name).answer (.line number)).1 =
        .text (lineAt (sourceLines source) number) ∧
      ((fresh.push source name).answer .name).1 = .text name) ∧
    (fresh.answer .tokens).1 = .tokens [⟨.endOfFile, [], 1, 1⟩] ∧
    ∀ before between after : List ReaderRequest, lastPush between = none →
      (fresh.run (before ++ .tokens :: (between ++ .tokens :: after)))[before.length]? =
        (fresh.run (before ++ .tokens :: (between ++ .tokens :: after)))[
          before.length + 1 + between.length]? := by
  have hfresh : fresh.Holds none := holds_ofPush none
  have hrun : ∀ before request after,
      (fresh.run (before ++ request :: after))[before.length]? =
        some ((ofPush (lastPush before)).answer request).1 := by
    intro before request after
    rw [hfresh.run, Option.or_none]
  refine ⟨hrun, fun source name number => ⟨?_, rfl, rfl⟩, ?_, fun before between after h => ?_⟩
  · exact congrArg ReaderAnswer.tokens (holds_ofPush (some (source, name))).build.2
  · have hnothing : tokenize (ofPush none).lines = [⟨.endOfFile, [], 1, 1⟩] := by
      rw [tokenize, show (ofPush none).lines = [] from rfl, tokensFrom]
      rfl
    exact congrArg ReaderAnswer.tokens (hfresh.build.2.trans hnothing)
  · have hsame : lastPush (before ++ .tokens :: between) = lastPush before :=
      lastPush_append_queries h .tokens rfl
    have hlater := hrun (before ++ .tokens :: between) .tokens after
    rw [hsame, List.length_append, List.length_cons, List.append_assoc, List.cons_append] at hlater
    rw [hrun, Nat.add_right_comm, Nat.add_assoc]
    exact hlater.symm

-- An unterminated string inside a bracket, and then a continued line, which is asked for twice.
theorem run_forgets_unclosed :
    let before : List ReaderRequest := [.push "x = [\n'''" "a", .tokens, .push "y: (\\" "b"]
    let between : List ReaderRequest := [.line 1, .name]
    lastPush between = none ∧
      (fresh.run (before ++ .tokens :: (between ++ [.tokens])))[3]? =
        (fresh.run (before ++ .tokens :: (between ++ [.tokens])))[6]? :=
  ⟨rfl, run_forgets.2.2.2 _ [.line 1, .name] [] rfl⟩

-- The string leaves the reader on its row, with the bracket open.
example : ((fresh.push "x = [\n'''" "a").answer .tokens).2.row = 1 ∧
    ((fresh.push "x = [\n'''" "a").answer .tokens).2.depth = 1 := by decide +kernel

end

end Reader

end TypeStub
