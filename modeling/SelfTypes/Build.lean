import SelfTypes.Dependency
import SelfTypes.Elaboration.Basic
import SelfTypes.Settings.Basic

/-!
# Builds

A build compiles a definition together with all that it depends on. Each definition is a job of
its own: it has its own group of variables and its own budget, and it reads the table alone. Jobs
are done in turn, up to the first that fails, or side by side; a build succeeds only if all of its
jobs do.
-/

namespace SelfTypes

/-! ## Results -/

/-- What a build gives: the definitions it compiled, in dependency order with the one it was for
at the end, and the code of each. -/
structure Compiled where
  /-- The compiled definitions, in order. -/
  names : List DefName
  /-- Code by name: one entry for each name, in the order in which the names first came up. -/
  definitions : List (DefName × Code)
  deriving DecidableEq, Inhabited

namespace Compiled

/-- Code by name with the code of one more name, in the place of that name or else at the end. -/
def insertCode (name : DefName) (code : Code) : List (DefName × Code) → List (DefName × Code)
  | [] => [(name, code)]
  | (n, c) :: rest => if n = name then (n, code) :: rest else (n, c) :: insertCode name code rest

/-- The result for names and their code; a name that comes up again replaces its code. -/
def collect (names : List DefName) (codes : List Code) : Compiled where
  names := names
  definitions := (names.zip codes).foldl (fun defs p => insertCode p.1 p.2 defs) []

/-- The definition the build was for. -/
def entry? (c : Compiled) : Option DefName :=
  c.names.getLast?

/-- The code of a definition. -/
def find? (c : Compiled) (name : DefName) : Option Code :=
  c.definitions.lookup name

end Compiled

/-- Why a build failed. -/
inductive BuildError where
  /-- A global has no definition. -/
  | undefinedReference (name : DefName)
  /-- A definition was not accepted. -/
  | rejected (failure : Failure)
  deriving DecidableEq, Inhabited

namespace BuildError

/-- The error of a build whose elaboration failed. -/
def ofFailure (f : Failure) : BuildError :=
  match f.cause with
  | .undefinedReference name => undefinedReference name
  | _ => rejected f

/-- The wording of a build error. -/
def message : BuildError → String
  | undefinedReference name => (Cause.undefinedReference name).message
  | rejected failure => failure.report

/-- The wording of a build error, if its terms have a text. -/
def message? : BuildError → Option String
  | undefinedReference name => some (undefinedReference name).message
  | rejected failure => failure.report?

end BuildError

/-- Computations of a build, which keep a trace. -/
abbrev BuildM := EStateM (Halt BuildError) Trace

namespace Build

/-- Records an event. -/
def note (e : Event) : BuildM Unit := fun trace =>
  .ok () (e :: trace)

/-! ## Jobs -/

/-- A definition to check and the variables to do it with. -/
structure Job where
  name : DefName
  supply : Supply
  deriving DecidableEq, Inhabited

/-- Jobs for definitions, each with a group of its own. -/
def Job.forNames (groups : GroupSupply) : List DefName → List Job
  | [] => []
  | name :: names =>
    let (supply, groups) := groups.issue
    ⟨name, supply⟩ :: Job.forNames groups names

/-- Checks the definition of a job with an elaborator of its own. -/
def Job.run (table : Table) (settings : Settings) (depth : Nat) (job : Job) : BuildM Code :=
  fun trace =>
    let env : Environment := { table, subsumption := settings.subsumption }
    let start := Elaborator.start job.supply settings.fuel
    match Elaborator.definition env depth job.name
        { start with kernel := { start.kernel with trace } } with
    | .ok code e => .ok code (.checked job.name e.kernel.spent :: e.kernel.trace)
    | .error (.failed f) e => .error (.failed (.ofFailure f)) e.kernel.trace
    | .error .unfinished e => .error .unfinished e.kernel.trace

/-- What came of a job. -/
abbrev Outcome := EStateM.Result (Halt BuildError) Trace Code

/-- Runs jobs in turn, up to the first that does not succeed. -/
def runInTurn (table : Table) (settings : Settings) (depth : Nat) (jobs : List Job) :
    BuildM (List Code) :=
  jobs.mapM (Job.run table settings depth)

/-! ## Jobs side by side -/

/-- The code of a job that succeeded. -/
def codeOf? : Outcome → Option Code
  | .ok code _ => some code
  | .error .. => none

/-- Why a job did not succeed. -/
def haltOf? : Outcome → Option (Halt BuildError)
  | .ok .. => none
  | .error halt _ => some halt

/-- The events of a job. -/
def traceOf : Outcome → Trace
  | .ok _ trace => trace
  | .error _ trace => trace

/-- An order in which the outcomes of jobs become known. -/
abbrev Arrival := List Outcome → List Outcome

/-- Runs jobs side by side. If all succeed, the order in which they do is of no account; if not,
the failure that becomes known first is the one of the build. -/
def runTogether (arrival : Arrival) (table : Table) (settings : Settings) (depth : Nat)
    (jobs : List Job) : BuildM (List Code) := fun trace =>
  let outcomes := jobs.map fun job => job.run table settings depth []
  -- the events of a job stay together, in the order of the jobs
  let trace := (outcomes.map traceOf).foldl (fun before after => after ++ before) trace
  match (arrival outcomes).findSome? haltOf? with
  | some halt => .error halt trace
  | none => .ok (outcomes.filterMap codeOf?) trace

/-! ## Builds -/

/-- The dependencies of a definition, in order. -/
def dependencies (table : Table) (entry : DefName) : BuildM (List DefName) := do
  let names := table.order entry
  if table.contains entry then
    note (.ordering entry names)
  return names

/-- Compiles a definition and its dependencies. `arrival` is the order in which jobs that run side
by side become known. -/
def compileArriving (arrival : Arrival) (table : Table) (settings : Settings) (depth : Nat)
    (entry : DefName) : BuildM Compiled := do
  if table.contains entry then
    let names := (← dependencies table entry) ++ [entry]
    -- each definition draws its variables from its own group
    let jobs := Job.forNames {} names
    let codes ←
      if settings.parallel then runTogether arrival table settings depth jobs
      else runInTurn table settings depth jobs
    note (.compiled entry names.length)
    return .collect names codes
  else
    throw (.failed (.undefinedReference entry))

/-- Compiles a definition and its dependencies. -/
def compile (table : Table) (settings : Settings) (depth : Nat) (entry : DefName) :
    BuildM Compiled :=
  compileArriving id table settings depth entry

/-- Compiles definitions, each by a build of its own. -/
def compileMany (table : Table) (settings : Settings) (depth : Nat) (entries : List DefName) :
    List (EStateM.Result (Halt BuildError) Trace Compiled) :=
  entries.map fun entry => compile table settings depth entry []

end Build

end SelfTypes
