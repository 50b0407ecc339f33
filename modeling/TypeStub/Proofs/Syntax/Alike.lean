import TypeStub.Syntax

-- Statements that differ in nothing but their places and the spelling of typed constants.
namespace TypeStub

-- An assignment that gives its name a type and no value.
inductive Assigned.Typed (type : Expr) : Assigned → Prop
  | declared (placeholder : Bool) : Typed type (.declared type placeholder)
  | commented : Typed type (.value .ellipsis (some type))

namespace Stmt

mutual

inductive Alike (ρ : Int32 → Int32 → Prop) : Stmt → Stmt → Prop
  | definition {p q : Place} (d : Def) : ρ p.line q.line → Alike ρ (.definition p d) (.definition q d)
  | classDef {p q : Place} {body other : List Stmt} (name : Text) (args : List ClassArg) :
      ρ p.line q.line → AllAlike ρ body other →
      Alike ρ (.classDef p name args body) (.classDef q name args other)
  | conditional {p q : Place} {thenBody elseBody thenOther elseOther : List Stmt} (isElif : Bool)
      (condition : Expr) : ρ p.line q.line → AllAlike ρ thenBody thenOther →
      AllAlike ρ elseBody elseOther → Alike ρ (.conditional p isElif condition thenBody elseBody)
        (.conditional q isElif condition thenOther elseOther)
  | assign {p q : Place} (target : Text) (assigned : Assigned) : ρ p.line q.line →
      Alike ρ (.assign p target assigned) (.assign q target assigned)
  | constant {p q : Place} {a b : Assigned} {type : Expr} (target : Text) : ρ p.line q.line →
      a.Typed type → b.Typed type → Alike ρ (.assign p target a) (.assign q target b)
  | typeVar {p q : Place} (name declaredName : Text) (constraints : List Expr)
      (keywords : List (Text × Expr)) : ρ p.line q.line →
      Alike ρ (.typeVar p name declaredName constraints keywords)
        (.typeVar q name declaredName constraints keywords)
  | importModules {p q : Place} (modules : List ImportedName) : ρ p.line q.line →
      Alike ρ (.importModules p modules) (.importModules q modules)
  | importFrom {p q : Place} (module : Text) (names : List ImportedName) : ρ p.line q.line →
      Alike ρ (.importFrom p module names) (.importFrom q module names)
  | importAll {p q : Place} (module : Text) : ρ p.line q.line →
      Alike ρ (.importAll p module) (.importAll q module)

inductive AllAlike (ρ : Int32 → Int32 → Prop) : List Stmt → List Stmt → Prop
  | nil : AllAlike ρ [] []
  | cons {s r : Stmt} {body other : List Stmt} : Alike ρ s r → AllAlike ρ body other →
      AllAlike ρ (s :: body) (r :: other)

end

end Stmt

end TypeStub
