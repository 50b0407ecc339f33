import TypeStub.Proofs.Live.Definitions
import TypeStub.Proofs.Load.Outcome
import TypeStub.Proofs.Merge.Accessors

-- The accessors in the classes of a source that is accepted, and the error for another one.
namespace TypeStub

namespace Live

open Declare

section

variable {state last : BuildState} {live : List Stmt} {defs : List Definition}
  {classes : List StubClass} {place : Place}

theorem Runs.makesClass {name : Text} {args : List ClassArg} {body : List Stmt}
    (h : Runs state live defs classes last) (hm : .classDef place name args body ∈ live) :
    ∃ before after assigned properties inner c,
      MakesClass place.line args body before assigned properties inner c after := by
  induction h with
  | nil => simp at hm
  | definition _ _ ih =>
      rcases List.mem_cons.mp hm with heq | hm
      · cases heq
      · exact ih hm
  | classDef _ hc _ ih =>
      rcases List.mem_cons.mp hm with heq | hm
      · cases heq
        exact ⟨_, _, _, _, _, _, hc⟩
      · exact ih hm
  | simple hs _ _ ih =>
      rcases List.mem_cons.mp hm with heq | hm
      · rw [← heq] at hs
        cases hs
      · exact ih hm

theorem ClassRuns.definition_mem {before assigned : List Constant} {body : List Stmt} {d : Def}
    (h : ClassRuns state before body assigned defs last) (hm : .definition place d ∈ body) :
    ∃ made ∈ defs, ∃ start next, Build.definition place.line d start = .ok made next := by
  induction h with
  | nil => simp at hm
  | definition hd _ ih =>
      rcases List.mem_cons.mp hm with heq | hm
      · cases heq
        exact ⟨_, by simp, _, _, hd⟩
      · obtain ⟨made, hmem, hmade⟩ := ih hm
        exact ⟨made, List.mem_cons_of_mem _ hmem, hmade⟩
  | assign _ _ _ ih =>
      rcases List.mem_cons.mp hm with heq | hm
      · cases heq
      · exact ih hm

-- A class that is made has no accessor that does not fit.
theorem MakesClass.fits {line : Int32} {args : List ClassArg} {body : List Stmt}
    {assigned properties : List Constant} {c : StubClass}
    (h : MakesClass line args body state assigned properties defs c last) {d : Def} {text : Text}
    (hm : .definition place d ∈ body) (hd : d.decorators = [text])
    (hp : (Decorator.ofText text).isProperty = true) : d.FitsAccessor (.ofText text) := by
  obtain ⟨inside, -, hruns⟩ := h.runs
  obtain ⟨made, hmem, start, next, hmade⟩ := hruns.definition_mem hm
  obtain ⟨hdecorator, hfits⟩ := Build.definition_fits hd hmade
  obtain ⟨members, hmembers, -⟩ := h.interleaved defs fun _ => rfl
  exact hfits.mp (Merge.fits_of_classMembers hmembers hmem (hdecorator ▸ hp))

end

end Live

namespace Load

open TypeStub.Declare TypeStub.Live

-- Building a source comes to merge the definitions of a class: all before it is in order.
inductive ReachesClass (digest : Hasher) (request : Request) (source : Text) :
    Place → List Stmt → List Definition → Prop
  | intro (front : List Stmt) {tree back inner : List Stmt} {scan : Prescan} {place : Place}
      {module name : Text} {args : List ClassArg} {items : List (List Item)} {heritage : Heritage}
      {constants : List Constant} {defs : List Definition} {before inside after : BuildState}
      (hnamed : moduleName digest request source = .ok module)
      (hparsed : parseSource source = .ok tree)
      (hscanned : Prescan.tree (module != "typing") request.target tree = .ok scan)
      (hlive : flatten request.target tree = front ++ .classDef place name args inner :: back)
      (hfront : front.mapM liveItems ⟨scan.names, .none⟩ = .ok items before)
      (hargs : args.foldlM (classArgument place.line) ⟨[], none⟩ before = .ok heritage inside)
      (hbody : classBody [] place.line (Path.classBody []) 0 ⟨[], []⟩ inner inside =
        .ok ⟨constants, defs⟩ after) :
      ReachesClass digest request source place inner defs

variable {digest : Hasher} {request : Request} {source : Text}

-- What is wrong with the definitions of a class is the error of the source, when nothing is wrong
-- before.
theorem load_of_reachesClass {place : Place} {inner : List Stmt} {defs : List Definition}
    {e : Fault} (h : ReachesClass digest request source place inner defs)
    (he : Merge.classMembers (some place.line.toInt) defs = .error e) :
    load digest request source = .error (ofFault request e) := by
  obtain ⟨front, hnamed, hparsed, hscanned, hlive, hfront, hargs, hbody⟩ := h
  rename_i tree back scan module name args items heritage constants before inside after
  have hclass : FailsWith before (liveItems (.classDef place name args inner)) e := by
    refine .bind (.after hargs (.after hbody (.bind ?_)))
    rw [he]
    exact ⟨after, rfl⟩
  have hmodule : FailsWith ⟨scan.names, .none⟩
      (moduleOf module scan.liveness tree) e := by
    have hbodies : moduleBody [] [] 0 (flatten request.target tree) =
        List.flatten <$> (flatten request.target tree).mapM liveItems := by
      have h := moduleBody_flatten (follows_flatten request.target [] [] 0 tree)
      rwa [flatten_flatten] at h
    have hliveness : scan.liveness =
        decisions request.target (reached request.target [] 0 tree) := by
      rw [tree_ok hscanned]
    rw [hliveness, moduleOf_flatten _ (follows_decisions request.target [] 0 tree), moduleOf]
    refine .bind ?_
    rw [hbodies, hlive, map_eq_pure_bind]
    exact .bind (.mapM hfront hclass)
  obtain ⟨last, hlast⟩ := hmodule
  rw [load_of_moduleName hnamed, loadAs, hparsed]
  dsimp only
  rw [build, hscanned]
  dsimp only
  rw [hlast]

-- An accepted source has in its live classes only accessors that fit: a getter and a deleter with
-- one ordinary parameter before a star, a setter with two. An accessor that does not fit is the
-- error, at the line of its class, unless something is wrong before it.
theorem load_accessors (digest : Hasher) (request : Request) (source : Text) :
    (∀ m, load digest request source = .ok m → ∃ tree, parseSource source = .ok tree ∧
      ∀ place name args inner, .classDef place name args inner ∈ flatten request.target tree →
        ∀ site d text, .definition site d ∈ inner → d.decorators = [text] →
          (Decorator.ofText text).isProperty = true → d.FitsAccessor (.ofText text)) ∧
    (∀ place inner defs d, ReachesClass digest request source place inner defs →
      Merge.FirstUnfit (some place.line.toInt) defs d →
      load digest request source = .error (ofFault request
        ⟨.unhandledDecorator d.decorator.text, some place.line.toInt⟩)) ∧
    ∀ line d text made before after, d.decorators = [text] →
      Build.definition line d before = .ok made after →
      made.decorator = .ofText text ∧ (made.FitsProperty ↔ d.FitsAccessor (.ofText text)) := by
  refine ⟨fun m h => ?_, fun place inner defs d hreaches hfirst => ?_,
    fun line d text made before after hd h => Build.definition_fits hd h⟩
  · obtain ⟨_, tree, built, -, hparsed, hbuilt, -, -⟩ := load_ok h
    obtain ⟨last, hmodule⟩ := build_live hbuilt
    obtain ⟨items, functions, hitems, -⟩ := moduleOf_ok hmodule
    have hflat := reached_flatten request.target request.target [] 0 tree
    have hruns := runs_of_moduleBody hflat hitems
    refine ⟨tree, hparsed, fun place name args inner hclass site d text hm hd hp => ?_⟩
    obtain ⟨before, after, assigned, properties, defs, c, hmakes⟩ := hruns.makesClass hclass
    exact hmakes.fits hm hd hp
  · exact load_of_reachesClass hreaches (Merge.classMembers_of_firstUnfit hfirst)

-- The name of a parameter that is a name alone.
def bareName? : Param → Option Text
  | .ordinary name none none => some name
  | _ => none

theorem bareName?_eq_some {param : Param} {name : Text} :
    bareName? param = some name ↔ param = .ordinary name none none := by
  constructor
  · intro h
    unfold bareName? at h
    split at h
    · cases h
      rfl
    · cases h
  · rintro rfl
    rfl

-- The line of the only class of a source and the parameters of the getter that is all its body.
def getter? : List Stmt → Option (Int32 × List Param)
  | [.classDef place _ [] [.definition _ ⟨_, [text], .declared params none [] []⟩]] =>
    if text = "property" then some (place.line, params) else none
  | _ => none

theorem getter?_eq_some {tree : List Stmt} {line : Int32} {params : List Param}
    (h : getter? tree = some (line, params)) : ∃ place name site id, place.line = line ∧
      tree = [.classDef place name [] [.definition site
        ⟨id, ["property"], .declared params none [] []⟩]] := by
  unfold getter? at h
  split at h
  · split at h
    · rename_i place name site id text _ htext
      cases h
      exact ⟨place, name, site, id, rfl, by rw [htext]⟩
    · cases h
  · cases h

-- A getter with one parameter too many, and nothing before it.
theorem load_accessors_getter :
    let source : Text := "class A:\n    @property\n    def p(self, q): ...\n"
    ∃ place inner defs d, ReachesClass Digest.md5 ⟨none, .standard, none⟩ source place inner defs ∧
      Merge.FirstUnfit (some place.line.toInt) defs d ∧
      load Digest.md5 ⟨none, .standard, none⟩ source = .error (ofFault ⟨none, .standard, none⟩
        ⟨.unhandledDecorator "property", some 1⟩) := by
  intro source
  have hrun : (parseSource source).toOption.any (fun tree =>
      (getter? tree).any fun getter => getter.1 == 1 &&
        getter.2.map bareName? == ([some "self", some "q"] : List (Option Text))) = true := by
    decide +kernel
  obtain ⟨tree, hparsed, hrun⟩ := (Option.any_eq_true _ _).mp hrun
  obtain ⟨⟨line, params⟩, hgetter, hread⟩ := (Option.any_eq_true _ _).mp hrun
  have hparsed := ok_of_toOption hparsed
  obtain ⟨place, name, site, id, hline, rfl⟩ := getter?_eq_some hgetter
  rw [Bool.and_eq_true, beq_iff_eq, beq_iff_eq] at hread
  obtain ⟨rfl, hparams⟩ := hread
  obtain ⟨first, rest, rfl, hfirst, hrest⟩ := List.map_eq_cons_iff.mp hparams
  obtain ⟨second, tail, rfl, hsecond, htail⟩ := List.map_eq_cons_iff.mp hrest
  obtain rfl := List.map_eq_nil_iff.mp htail
  obtain rfl := bareName?_eq_some.mp hfirst
  obtain rfl := bareName?_eq_some.mp hsecond
  let made : Definition := ⟨id, .ofText "property", some
    ⟨[⟨"self", .named "object", false, false⟩, ⟨"q", .named "object", false, false⟩],
      none, none, .anything, [], []⟩⟩
  have hreaches : ReachesClass Digest.md5 ⟨none, .standard, none⟩ source place _ [made] :=
    .intro [] rfl hparsed rfl rfl rfl rfl rfl
  have hunfit : ¬ made.FitsProperty := by
    rintro ⟨s, hs, hfits⟩
    cases hs
    cases hfits
  have hfirst : Merge.FirstUnfit (some place.line.toInt) [made] made :=
    Merge.firstUnfit_single rfl hunfit
  have hload := (load_accessors _ _ source).2.1 place _ _ _ hreaches hfirst
  rw [hline] at hload
  exact ⟨place, _, _, made, hreaches, hfirst, hload⟩

-- A getter may take more parameters behind a star.
theorem load_accessors_keyword : ¬ ∀ request source m tree, load Digest.md5 request source = .ok m →
    parseSource source = .ok tree → ∀ place name args inner,
      .classDef place name args inner ∈ flatten request.target tree →
      ∀ site d, .definition site d ∈ inner → d.decorators = [("property" : Text)] →
        ∃ param hint default returns raises mutators,
          d.body = .declared [.ordinary param hint default] returns raises mutators := by
  intro h
  let source : Text := "class A:\n    @property\n    def x(self, *, a): ...\n"
  have haccepted : (load Digest.md5 ⟨none, .standard, none⟩ source).toOption.isSome = true := by
    decide +kernel
  obtain ⟨m, hm⟩ := Option.isSome_iff_exists.mp haccepted
  have hrun : (parseSource source).toOption.any (fun tree =>
      (getter? tree).any fun getter => getter.2.length == 3) = true := by decide +kernel
  obtain ⟨tree, hparsed, hrun⟩ := (Option.any_eq_true _ _).mp hrun
  obtain ⟨⟨line, params⟩, hgetter, hlength⟩ := (Option.any_eq_true _ _).mp hrun
  have hparsed := ok_of_toOption hparsed
  obtain ⟨place, name, site, id, -, rfl⟩ := getter?_eq_some hgetter
  obtain ⟨_, _, _, _, _, _, hbody⟩ := h _ _ m _ (ok_of_toOption hm) hparsed _ _ _ _
    List.mem_cons_self _ _ List.mem_cons_self rfl
  cases hbody
  cases hlength

end Load

end TypeStub
