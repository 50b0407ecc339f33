import TypeStub.Proofs.Grammar.ClassReads
import TypeStub.Proofs.Grammar.Depth
import TypeStub.Proofs.Token.Block

-- Conditionals with any number of branches, as they are written and as they are read.
namespace TypeStub.Chain

open TypeStub.Grammar TypeStub.Parser

def branchLines (word : Text) : List Text := [word ++ " a=='':", "    pass"]

-- An `if` and so many further branches.
def lines : Nat → List Text
  | 0 => branchLines "if"
  | n + 1 => lines n ++ branchLines "elif"

def source (n : Nat) : Text := Text.joinWith "\n" (lines n)

def conditionSpelling : List Spelling := [(.ident, "a"), (.eqEq, "=="), (.string, "''")]

def branchSpelling (word : Spelling) : List Spelling :=
  (word :: conditionSpelling ++ [sign .colon]) ++
    (sign .newline :: sign .indent :: ([sign .kwPass, sign .newline] ++ [sign .dedent]))

def ifWord : Spelling := (.kwIf, "if")

def elifWord : Spelling := (.kwElif, "elif")

theorem scans_condition : Scans " a=='':" (conditionSpelling ++ [sign .colon]) :=
  .blank (.token 'a' [] rfl (.token '=' ['='] rfl
    (.token '\'' ['\''] rfl (.token ':' [] rfl .nil))))

theorem block_branch {word : Text} {kind : TokenKind}
    (hl : Line (word ++ " a=='':") ((kind, word) :: conditionSpelling ++ [sign .colon])) :
    Block (branchLines word) (branchSpelling (kind, word)) := by
  have hpass : Line "pass" [sign .kwPass] :=
    ⟨⟨'p', "ass", rfl, by decide, by decide⟩, by decide, .token 'p' "ass" rfl .nil, fun _ => rfl⟩
  exact hl.nest hpass.block

theorem block_if : Block (branchLines "if") (branchSpelling ifWord) :=
  block_branch ⟨⟨'i', "f a=='':", rfl, by decide, by decide⟩, by decide,
    .token 'i' ['f'] rfl scans_condition, fun _ => rfl⟩

theorem block_elif : Block (branchLines "elif") (branchSpelling elifWord) :=
  block_branch ⟨⟨'e', "lif a=='':", rfl, by decide, by decide⟩, by decide,
    .token 'e' "lif" rfl scans_condition, fun _ => rfl⟩

def moreSpelling (n : Nat) : List Spelling :=
  (List.replicate n ()).flatMap fun _ => [] ++ branchSpelling elifWord

theorem block_lines (n : Nat) : Block (lines n) (branchSpelling ifWord ++ moreSpelling n) := by
  induction n with
  | zero =>
      rw [moreSpelling, List.replicate_zero, List.flatMap_nil, List.append_nil]
      exact block_if
  | succ n ih =>
      have hmore : moreSpelling (n + 1) = moreSpelling n ++ branchSpelling elifWord := by
        simp [moreSpelling, List.replicate_succ']
      rw [hmore, ← List.append_assoc]
      exact ih.append block_elif

theorem tokenize_source (n : Nat) : (tokenize (sourceLines (source n))).map Token.spelling =
    branchSpelling ifWord ++ moreSpelling n ++ [sign .endOfFile] := by
  have hblock := block_lines n
  have hlines : sourceLines (source n) = lines n := by
    refine sourceLines_eq (splitLines_joinWith ?_ ?_ ?_).1 fun line hl => (hblock.inline line hl).1
    · exact fun line hl => (hblock.inline line hl).1.1
    · exact fun hlast => (hblock.inline [] (List.mem_of_getLast? hlast)).2 rfl
    · obtain ⟨first, rest, hcons, -⟩ := hblock.opens
      simp [hcons]
  refine tokenize_spelling hlines ?_
  have hlays := hblock.lays 0
  simpa [Text.spaces] using hlays

variable {follow : List Spelling → Prop}

theorem reads_name : Reads conditionName [(.ident, "a")] (fun s => (headSpelling s).1 = .eqEq)
    (· = .name "a") := by
  have ha : Identifier ['a'] := .word (by decide) (by simp) (by decide)
  refine (reads_dottedName (.single ha)).bind (fun name hn => .refused (fun s hs => ?_)
    (.pure (congrArg Expr.name hn))) fun s hs => ?_
  · rw [List.nil_append, hs]
    simp
  · rw [List.nil_append, hs]
    simp

theorem reads_value (budget : Nat) :
    Reads (conditionValue (budget + 1)) [(.string, "''")] follow (· = .string []) := by
  refine .peek fun token ⟨_, _, ht⟩ => ?_
  have hk : token.kind = .string := congrArg Prod.fst ht
  have htext : token.text = "''" := congrArg Prod.snd ht
  simp only [hk, htext]
  exact .taken fun _ _ => .pure rfl

theorem reads_term (condition : Parser Expr) (budget : Nat) :
    Reads (conditionTerm condition (conditionValue (budget + 1))) conditionSpelling follow
      (· = .compare (.name "a") .eq (.string [])) := by
  refine .refused (fun s _ => by simp [conditionSpelling]) ?_
  refine reads_name.bind (fun left hl => ?_) (fun s _ => rfl)
  refine .peek fun token ⟨_, _, ht⟩ => ?_
  have hk : token.kind = .eqEq := congrArg Prod.fst ht
  simp only [hk]
  exact .taken fun _ _ => (reads_value budget).bindPure fun right hr => by rw [hl, hr]

theorem reads_condition (budget : Nat) :
    Reads (condition (budget + 2)) conditionSpelling (fun s => (headSpelling s).1 = .colon)
      fun _ => True :=
  ((reads_term _ budget).separatedOne fun s hs => by rw [hs]; simp).bindPure fun _ _ => trivial

theorem reads_block (budget : Nat) (scope : Scope) :
    Reads (blockOf (statement budget scope))
      (sign .newline :: sign .indent :: ([sign .kwPass, sign .newline] ++ [sign .dedent])) follow
      fun _ => True := by
  have hpass : ∀ i ∈ [()], Reads (statement budget scope) [sign .kwPass, sign .newline]
      (fun _ => True) fun _ => True := by
    intro _ _
    cases budget <;> exact reads_pass.mono (fun _ hs => hs) fun _ _ => trivial
  exact (reads_blockOf hpass fun _ _ _ => by simp).mono (fun _ hs => hs) fun _ _ => trivial

-- A branch, after the word that opens it.
theorem reads_branch (budget : Nat) (scope : Scope) (word : Spelling) :
    Reads (branch (condition (budget + 2)) (blockOf (statement (budget + 1) scope)))
      (branchSpelling word) follow fun _ => True := by
  refine .taken fun _ _ => ?_
  refine (reads_condition budget).bind (fun _ _ => ?_) fun _ _ => rfl
  exact .expected ":" fun _ _ => (reads_block _ scope).bindPure fun _ _ => trivial

theorem chainLength_chain (branches : List Branch) :
    Stmt.chainLength (chain branches []) = branches.length := by
  induction branches with
  | nil => simp [chain, Stmt.chainLength]
  | cons b rest ih =>
      rw [chain] at ih
      simp [chain, Stmt.chainLength, ih]

-- What may stand after a chain: no further branch.
def Ends (s : List Spelling) : Prop := (headSpelling s).1 ≠ .kwElif ∧ (headSpelling s).1 ≠ .kwElse

-- All the branches are read, whatever their number.
theorem reads_conditional (budget : Nat) (scope : Scope) (n : Nat) :
    Reads (conditional (condition (budget + 2)) (blockOf (statement (budget + 1) scope)))
      (branchSpelling ifWord ++ moreSpelling n) Ends fun s => s.branches = n := by
  have hlead : Reads (do return (← peek).kind != .kwElif) []
      (fun s => (headSpelling s).1 = .kwElif) (· = false) := by
    refine .peek fun token ⟨s, hs, ht⟩ => .pure ?_
    have hk : token.kind = .kwElif := (congrArg Prod.fst ht).trans hs
    simp [hk]
  have hfinal : Reads (do return (← peek).kind != .kwElif) [] Ends (· = true) := by
    refine .peek fun token ⟨s, hs, ht⟩ => .pure ?_
    have hk : token.kind = (headSpelling s).1 := congrArg Prod.fst ht
    simpa [hk] using hs.1
  have hbranch : ∀ word,
      Reads (branch (condition (budget + 2)) (blockOf (statement (budget + 1) scope)))
        (branchSpelling word) (fun _ => True) fun _ => True := reads_branch budget scope
  have hmore : Reads (repeatUntil (do return (← peek).kind != .kwElif)
        (branch (condition (budget + 2)) (blockOf (statement (budget + 1) scope))))
      (moreSpelling n ++ []) Ends (·.length = n) := by
    refine (Reads.repeatUntil hlead (fun _ _ => hbranch elifWord) hfinal (fun _ _ _ _ => rfl)
      (fun _ _ _ => trivial) (fun _ _ => trivial) (fun _ _ => by simp [branchSpelling])).mono
        (fun _ hs => hs) fun more hm => ?_
    rw [← hm.length_eq, List.length_replicate]
  rw [List.append_nil] at hmore
  rw [← List.append_nil (moreSpelling n)]
  refine (hbranch ifWord).bind (fun first _ => hmore.bind (fun more hm => ?_) fun _ hs => hs)
    fun _ _ => trivial
  refine .refused (fun s hs => hs.2) (.pure ?_)
  rw [Stmt.branches, chainLength_chain, hm]

theorem reads_statement (budget : Nat) (scope : Scope) (n : Nat) :
    Reads (statement (budget + 2) scope) (branchSpelling ifWord ++ moreSpelling n) Ends
      fun s => ∃ x, s = some x ∧ x.branches = n := by
  refine .peek fun token ⟨_, _, ht⟩ => ?_
  have hk : token.kind = .kwIf := congrArg Prod.fst ht
  simp only [hk]
  exact (reads_conditional budget scope n).bindPure fun x hx => ⟨x, rfl, hx⟩

theorem reads_module (n : Nat) :
    Reads module (branchSpelling ifWord ++ moreSpelling n)
      (fun s => (headSpelling s).1 = .endOfFile) fun body => ∃ x, body = [x] ∧ x.branches = n := by
  have hlead : Reads (do return (← peek).kind = .endOfFile : Parser Bool) []
      (fun s => (headSpelling s).1 = .kwIf) (· = false) := by
    refine .peek fun token ⟨s, hs, ht⟩ => .pure ?_
    have hk : token.kind = .kwIf := (congrArg Prod.fst ht).trans hs
    simp [hk]
  have hfinal : Reads (do return (← peek).kind = .endOfFile : Parser Bool) []
      (fun s => (headSpelling s).1 = .endOfFile) (· = true) := by
    refine .peek fun token ⟨s, hs, ht⟩ => .pure ?_
    have hk : token.kind = .endOfFile := (congrArg Prod.fst ht).trans hs
    simp [hk]
  have hitem : ∀ i ∈ [()], Reads (statement nestingLimit .module)
      (branchSpelling ifWord ++ moreSpelling n) Ends fun s => ∃ x, s = some x ∧ x.branches = n :=
    fun _ _ => reads_statement 98 .module n
  have hall := Reads.repeatUntil hlead hitem hfinal (fun _ _ _ _ => rfl)
    (fun _ _ _ => ⟨by simp [branchSpelling, ifWord], by simp [branchSpelling, ifWord]⟩)
    (fun s hs => ⟨by rw [List.nil_append, hs]; simp, by rw [List.nil_append, hs]; simp⟩)
    (fun _ _ => by simp [branchSpelling])
  simp only [List.flatMap_singleton, List.nil_append, List.append_nil] at hall
  refine hall.bindPure fun read h => ?_
  obtain ⟨s, rest, ⟨x, rfl, hx⟩, hrest, rfl⟩ := List.forall₂_cons_left_iff.mp h
  obtain rfl := List.forall₂_nil_left_iff.mp hrest
  exact ⟨x, rfl, hx⟩

-- A chain of any length is the only statement of a source that parses.
theorem parseSource_chain (n : Nat) :
    ∃ statement, parseSource (source n) = .ok [statement] ∧ statement.branches = n := by
  obtain ⟨tokens, last, htokens, hspelled, hlast⟩ := List.map_eq_append_iff.mp (tokenize_source n)
  obtain ⟨body, hmodule, x, rfl, hx⟩ := reads_module n tokens last hspelled (by rw [hlast]; rfl)
  refine ⟨x, ?_, hx⟩
  simp only [parseSource, parseLines, parseTokens, htokens, hmodule]

-- So no constant bounds the depth of the trees of all sources that parse.
theorem parseSource_unbounded :
    ¬ ∃ bound, ∀ source body, parseSource source = .ok body → Stmt.depthAll body ≤ bound := by
  rintro ⟨bound, hbound⟩
  obtain ⟨statement, hparse, hbranches⟩ := parseSource_chain (bound + 1)
  have hdepth := hbound _ _ hparse
  have hchain := Nat.le_trans statement.branches_le_longestChain statement.longestChain_le_depth
  simp only [Stmt.depthAll] at hdepth
  omega

end TypeStub.Chain

namespace TypeStub

-- The tree of a source that parses is as deep as its longest chain of branches, up to constants.
theorem parseSource_depth {source : Text} {body : List Stmt} (h : parseSource source = .ok body) :
    Stmt.longestChainIn body ≤ Stmt.depthAll body ∧
      Stmt.depthAll body ≤ 205 + 101 * Stmt.longestChainIn body := by
  refine ⟨Stmt.longestChainIn_le_depth body, Stmt.depthAll_le fun statement hs => ?_⟩
  have hchain := Stmt.longestChain_le_of_mem (Nat.le_refl _) statement hs
  exact (parseSource_within h statement hs).depth_le hchain

theorem parseSource_depth_chain :
    ∃ body, parseSource (Chain.source 7) = .ok body ∧
      Stmt.longestChainIn body ≤ Stmt.depthAll body ∧
      Stmt.depthAll body ≤ 205 + 101 * Stmt.longestChainIn body := by
  obtain ⟨statement, h, -⟩ := Chain.parseSource_chain 7
  exact ⟨[statement], h, parseSource_depth h⟩

end TypeStub
