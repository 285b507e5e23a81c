import SelfTypes.Term.Printer

/-!
# Failures of elaboration

A failure has a cause and remembers the tasks that were open when it arose. `Cause.message` words
the cause, `Failure.report` adds the open tasks. A failure whose terms do not all have a text has
no report.
-/

namespace SelfTypes

/-- What is asked about a term. -/
inductive Mode where
  /-- Its type is to be found. -/
  | synthesis
  /-- It is to be checked against a type. -/
  | analysis (ty : Term)
  deriving DecidableEq, Inhabited

/-- A task of the elaborator. -/
inductive Task where
  /-- A definition is checked. -/
  | definition (name : DefName)
  /-- A term is elaborated. -/
  | term (t : Term) (mode : Mode)
  deriving DecidableEq, Inhabited

/-- Why elaboration failed. -/
inductive Cause where
  /-- A global has no definition. -/
  | undefinedReference (name : DefName)
  /-- A variable is not in the context. -/
  | unboundVariable (x : Var)
  /-- An index has no binder. -/
  | danglingIndex (index : Nat)
  /-- The function of an application is not of a self type. -/
  | notAFunction (t ty : Term)
  /-- A function is checked against something else than a self type. -/
  | notAFunctionType (t ty : Term)
  /-- The type of a function is asked for. -/
  | uninferableFunction (t : Term)
  /-- A term has another type than the one it should have. -/
  | mismatch (expected found : Term)
  /-- The reduction budget is used up. -/
  | outOfFuel (limit : Nat)
  deriving DecidableEq, Inhabited

/-- A cause and the tasks that were open, the innermost first. -/
structure Failure where
  cause : Cause
  stack : List Task
  deriving DecidableEq, Inhabited

/-! ## Wording -/

/-- A text in backquotes. -/
def quoted (s : String) : String :=
  "`" ++ s ++ "`"

/-- The wording of a cause. -/
def Cause.message : Cause → String
  | undefinedReference name => "Undefined reference: " ++ quoted name
  | unboundVariable x => "Unbound variable: " ++ quoted x.text
  | danglingIndex index => s!"Dangling bound index: ^{index}"
  | notAFunction t ty =>
    "Non-function application: " ++ quoted t.text ++ " has type " ++ quoted ty.text
  | notAFunctionType t ty =>
    "Lambda has non-function type: " ++ quoted t.text ++ " against " ++ quoted ty.text
  | uninferableFunction t =>
    "Cannot infer the type of lambda " ++ quoted t.text ++ "; annotate it"
  | mismatch expected found =>
    "Type mismatch: expected " ++ quoted expected.text ++ ", found " ++ quoted found.text
  | outOfFuel limit => s!"ran out of fuel after {limit} reduction steps"

/-- The most characters of a term that a report shows. -/
def reportWidth : Nat := 240

/-- A text cut to the width of a report, with dots in the place of what was cut. -/
def abridge (s : String) : String :=
  if s.length > reportWidth then String.ofList (s.toList.take (reportWidth - 3)) ++ "..." else s

/-- The lines of a report about an open task. -/
def Task.lines : Task → List String
  | definition name => ["\t- when elaborating definition " ++ quoted name]
  | term t .synthesis =>
    ["\t- when elaborating term:", "\t\t>> " ++ abridge t.text, "\t\t<< (syn)"]
  | term t (.analysis ty) =>
    ["\t- when elaborating term:", "\t\t>> " ++ abridge t.text, "\t\t<< (ana) " ++ abridge ty.text]

/-- The wording of a failure: the cause, and the open tasks from the outermost to the innermost. -/
def Failure.report (f : Failure) : String :=
  String.join ((f.cause.message :: f.stack.reverse.flatMap Task.lines).map (· ++ "\n"))

/-! ## What can be worded -/

/-- The terms in the wording of a cause. -/
def Cause.terms : Cause → List Term
  | undefinedReference _ | unboundVariable _ | danglingIndex _ | outOfFuel _ => []
  | notAFunction t ty => [t, ty]
  | notAFunctionType t ty => [t, ty]
  | uninferableFunction t => [t]
  | mismatch expected found => [expected, found]

/-- The terms in the lines about an open task. -/
def Task.terms : Task → List Term
  | definition _ => []
  | term t .synthesis => [t]
  | term t (.analysis ty) => [t, ty]

/-- Whether all terms in the wording of a failure have a text. -/
def Failure.isPrintable (f : Failure) : Bool :=
  (f.cause.terms ++ f.stack.flatMap Task.terms).all Term.isPrintable

/-- The wording of a failure, if it has one. -/
def Failure.report? (f : Failure) : Option String :=
  if f.isPrintable then some f.report else none

end SelfTypes
