import TypeStub.Proofs.Convert.TypeNames
import TypeStub.Proofs.Grammar.Scoped
import TypeStub.Proofs.Live.Declarations
import TypeStub.Proofs.Names.Resolve

-- What the names of live code stand for at a place.
namespace TypeStub.Live

-- The classes and the type variables that statements declare, those inside other statements among
-- them.
def declaredClasses (live : List Stmt) : List Text :=
  (classStatements (Stmt.nestedAll live)).map (·.1)

def declaredVariables (live : List Stmt) : List Text :=
  (Stmt.nestedAll live).filterMap typeVariableName?

-- The local names that a statement imports, each with what it stands for elsewhere.
def importsIn : Stmt → List (Text × Text)
  | .importFrom _ module imported =>
      imported.map fun n => (n.asName.getD n.name, module ++ '.' :: n.name)
  | _ => []

-- The names of a stub that declares nothing and imports what these statements import.
def importsOnly (useBuiltins : Bool) (before : List Stmt) : Names :=
  ⟨useBuiltins, [], [], (before.flatMap importsIn).reverse⟩

-- What names stand for in live code after some of its statements. Declarations count wherever they
-- stand, and before anything else; where there is none, no declaration counts.
structure Shadows (useBuiltins : Bool) (live before : List Stmt) (names : Names) : Prop where
  typeVariable : ∀ name ∈ declaredVariables live, name ∉ fixedNames →
    names.resolve name = .parameter name
  classDef : ∀ name ∈ declaredClasses live, name ∉ declaredVariables live → name ∉ fixedNames →
    names.resolve name = .named name
  undeclared : ∀ name, name ∉ declaredVariables live → name ∉ declaredClasses live →
    names.resolve name = (importsOnly useBuiltins before).resolve name

-- A type that mentions no declaration is that of a stub without declarations.
theorem Shadows.type_eq {useBuiltins : Bool} {live before : List Stmt} {names : Names}
    (h : Shadows useBuiltins live before names) {e : Expr}
    (he : ∀ name ∈ e.typeNames, name ∉ declaredVariables live ∧ name ∉ declaredClasses live) :
    Convert.type names e = Convert.type (importsOnly useBuiltins before) e :=
  Convert.type_congr fun name hn => h.undeclared name (he name hn).1 (he name hn).2

theorem declaredClasses_append (body more : List Stmt) :
    declaredClasses (body ++ more) = declaredClasses body ++ declaredClasses more := by
  simp [declaredClasses, classStatements, Stmt.nestedAll_append]

theorem declaredVariables_append (body more : List Stmt) :
    declaredVariables (body ++ more) = declaredVariables body ++ declaredVariables more := by
  simp [declaredVariables, Stmt.nestedAll_append]

-- The names with more declarations, the last ones in front.
def declaring (names : Names) (live : List Stmt) : Names :=
  { names with
    classes := (declaredClasses live).reverse ++ names.classes
    typeVars := (declaredVariables live).reverse ++ names.typeVars }

theorem declaring_append (names : Names) (body more : List Stmt) :
    declaring names (body ++ more) = declaring (declaring names body) more := by
  simp [declaring, declaredClasses_append, declaredVariables_append]

mutual

theorem declare_flattenStmt (target : Target) : ∀ (names : Names) (statement : Stmt),
    declare names (flattenStmt target statement) =
      declaring names (flattenStmt target statement)
  | names, .conditional _ _ condition thenBody elseBody => by
      rw [flattenStmt]
      split
      · exact declare_flatten target names thenBody
      · exact declare_flatten target names elseBody
  | names, .classDef place name args body => by
      rw [flattenStmt, declare, declareStmt, declare_flatten target (names.addClass name) body]
      simp [declare, declaring, declaredClasses, declaredVariables, classStatements,
        Stmt.nestedAll, Stmt.nested, classStatement?, List.filterMap_cons, typeVariableName?,
        Names.addClass]
  | _, .definition _ _ | _, .assign _ _ _ | _, .typeVar _ _ _ _ _ | _, .importModules _ _
  | _, .importFrom _ _ _ | _, .importAll _ _ => rfl

-- Live code declares its classes and its type variables, and nothing else.
theorem declare_flatten (target : Target) : ∀ (names : Names) (body : List Stmt),
    declare names (flatten target body) = declaring names (flatten target body)
  | _, [] => rfl
  | names, statement :: rest => by
      rw [flatten, declare_append, declare_flattenStmt target names statement,
        declare_flatten target _ rest, declaring_append]

end

theorem namesAfter_eq (names : Names) (statement : Stmt) :
    namesAfter names statement =
      { names with imports := (importsIn statement).reverse ++ names.imports } := by
  cases statement with
  | importFrom place module imported =>
      rw [namesAfter, importsIn]
      induction imported generalizing names with
      | nil => rfl
      | cons n rest ih =>
          rw [List.foldl_cons, ih]
          simp [Names.addImport]
  | _ => rfl

-- At a place the imports before it are known, the last one in front.
theorem known_at (names : Names) (before : List Stmt) (statement : Stmt) (after : List Stmt) :
    (known names (before ++ statement :: after))[before.length]? =
      some ({ names with imports := (before.flatMap importsIn).reverse ++ names.imports },
        statement) := by
  induction before generalizing names with
  | nil => rfl
  | cons first rest ih =>
      rw [List.cons_append, known, List.length_cons, List.getElem?_cons_succ, ih, namesAfter_eq]
      simp

theorem shadows_declaring (useBuiltins : Bool) (live before : List Stmt) :
    Shadows useBuiltins live before
      (declaring (importsOnly useBuiltins before) live) := by
  have hvar : ∀ name, (declaring (importsOnly useBuiltins before) live).isTypeVar name = true ↔
      name ∈ declaredVariables live := by
    simp [declaring, importsOnly, Names.isTypeVar]
  have hclass : ∀ name, (declaring (importsOnly useBuiltins before) live).isClass name = true ↔
      name ∈ declaredClasses live := by
    simp [declaring, importsOnly, Names.isClass]
  have hnovar : ∀ name, name ∉ declaredVariables live →
      (declaring (importsOnly useBuiltins before) live).isTypeVar name = false := by
    intro name hv
    rwa [Bool.eq_false_iff, ne_eq, hvar]
  refine ⟨fun name hv hf => Names.resolve_variable hf ((hvar name).mpr hv),
    fun name hc hv hf => Names.resolve_class hf (hnovar name hv) ((hclass name).mpr hc),
    fun name hv hc => Names.resolve_without (hnovar name hv) ?_⟩
  rwa [Bool.eq_false_iff, ne_eq, hclass]

end TypeStub.Live
