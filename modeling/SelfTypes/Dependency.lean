import SelfTypes.Table

/-!
# Dependency order

A definition depends on the globals that its body refers to in a place with content at run time,
and on what these depend on. `Table.order` lists the dependencies of a definition, each one after
those it refers to itself where the references are not cyclic.

The search is depth first. A name counts as visited before its body is searched, which is what
ends the search on cycles, and is listed once its body is done.
-/

namespace SelfTypes

/-- The globals a term refers to in places with content at run time, in order of occurrence: not
in self types nor in the types of annotations. -/
def Term.dependencies : Term → List DefName
  | bound _ | var _ | typ | all .. => []
  | ref n => [n]
  | lam _ _ b => b.dependencies
  | app f a _ => f.dependencies ++ a.dependencies
  | letIn _ _ e b => e.dependencies ++ b.dependencies
  | ann _ e _ => e.dependencies
  | loc _ e => e.dependencies

namespace Table

/-- A step of the search for dependencies. -/
inductive Step where
  /-- Search the body of a definition, unless it was visited before. -/
  | enter (name : DefName)
  /-- List a definition, whose body has been searched. -/
  | leave (name : DefName)
  deriving DecidableEq, Inhabited

/-- The defined names that have not been visited. -/
def unvisited (t : Table) (visited : List DefName) : List DefName :=
  t.names.filter (· ∉ visited)

theorem mem_names_of_find? {t : Table} {n : DefName} {d : Definition} (h : t.find? n = some d) :
    n ∈ t.names := by
  unfold find? at h
  exact List.mem_map.2 ⟨d, List.mem_of_find?_eq_some h, by simpa using List.find?_some h⟩

theorem length_unvisited_cons_lt {t : Table} {n : DefName} {visited : List DefName}
    (hn : n ∈ t.names) (hv : n ∉ visited) :
    (t.unvisited (n :: visited)).length < (t.unvisited visited).length := by
  have hsplit : t.unvisited (n :: visited) = (t.unvisited visited).filter (· ≠ n) := by
    simp only [unvisited, List.filter_filter, List.mem_cons, not_or]
    congr 1
    funext m
    simp
  rw [hsplit]
  refine List.length_filter_lt_length_iff_exists.2 ⟨n, ?_, by simp⟩
  simp [unvisited, hn, hv]

/-- Carries out the steps in turn. `listed` is the result so far, the latest name first. -/
def explore (t : Table) (steps : List Step) (visited listed : List DefName) : List DefName :=
  match steps with
  | [] => listed.reverse
  | .leave n :: rest => explore t rest visited (n :: listed)
  | .enter n :: rest =>
    if hv : n ∈ visited then
      explore t rest visited listed
    else
      match hd : t.find? n with
      -- an unknown name is left for the elaborator to report
      | none => explore t rest visited listed
      | some d =>
        -- visited before its body is searched, and listed after it
        have := length_unvisited_cons_lt (mem_names_of_find? hd) hv
        explore t (d.body.dependencies.map .enter ++ .leave n :: rest) (n :: visited) listed
termination_by ((t.unvisited visited).length, steps.length)

/-- The dependencies of a definition other than itself, in dependency order; none if the name has
no definition. -/
def order (t : Table) (entry : DefName) : List DefName :=
  match t.find? entry with
  | none => []
  | some d => t.explore (d.body.dependencies.map .enter) [entry] []

end Table

end SelfTypes
