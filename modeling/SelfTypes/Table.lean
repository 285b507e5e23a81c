import SelfTypes.Term.Basic

/-!
# Tables of definitions

A table holds at most one definition of each name, in the order in which the names were first
defined. `Table.insert` replaces in place or appends, `Table.find?` looks a name up.

Main statements: `find?_insert_self`, `find?_insert_of_ne` and `names_insert` describe an
insertion by what can be seen of the table.
-/

namespace SelfTypes

/-- A global definition: its declared type and its body. -/
structure Definition where
  name : DefName
  ty : Term
  body : Term
  deriving DecidableEq, Inhabited

/-- Definitions of distinct names, in order. -/
structure Table where
  entries : List Definition := []
  nodup : (entries.map Definition.name).Nodup := by exact List.nodup_nil

namespace Table

/-- The table without definitions. -/
def empty : Table := {}

instance : Inhabited Table := ⟨empty⟩

/-- The defined names, in order. -/
def names (t : Table) : List DefName :=
  t.entries.map Definition.name

theorem nodup_names (t : Table) : t.names.Nodup := t.nodup

/-- The definition of a name. -/
def find? (t : Table) (n : DefName) : Option Definition :=
  t.entries.find? (·.name == n)

/-- Whether a name is defined. -/
def contains (t : Table) (n : DefName) : Bool :=
  t.names.contains n

/-! ## Insertion -/

/-- Entries with the given one in the place of the entry of its name, or else at the end. -/
def insertEntry (d : Definition) : List Definition → List Definition
  | [] => [d]
  | e :: es => if e.name = d.name then d :: es else e :: insertEntry d es

theorem names_insertEntry (d : Definition) (es : List Definition) :
    (insertEntry d es).map Definition.name =
      if d.name ∈ es.map Definition.name then es.map Definition.name
      else es.map Definition.name ++ [d.name] := by
  induction es with
  | nil => simp [insertEntry]
  | cons e es ih =>
    by_cases h : e.name = d.name
    · simp [insertEntry, h]
    · simp only [insertEntry, h, if_false, List.map_cons, ih, List.mem_cons, Ne.symm h, false_or]
      split <;> simp

/-- The table with one more definition; a definition of the same name gives way to it. -/
def insert (t : Table) (d : Definition) : Table where
  entries := insertEntry d t.entries
  nodup := by
    rw [names_insertEntry]
    split
    · exact t.nodup
    · rename_i h
      exact List.nodup_append.2 ⟨t.nodup, by simp, by
        intro a ha b hb hab
        simp only [List.mem_singleton] at hb
        exact h (hb ▸ hab ▸ ha)⟩

/-- The table of the given definitions, later ones replacing earlier ones of their name. -/
def ofList (ds : List Definition) : Table :=
  ds.foldl insert empty

theorem names_insert (t : Table) (d : Definition) :
    (t.insert d).names = if d.name ∈ t.names then t.names else t.names ++ [d.name] :=
  names_insertEntry d t.entries

theorem find?_insert_self (t : Table) (d : Definition) : (t.insert d).find? d.name = some d := by
  simp only [find?, insert]
  induction t.entries with
  | nil => simp [insertEntry]
  | cons e es ih => by_cases h : e.name = d.name <;> simp [insertEntry, h, ih]

theorem find?_insert_of_ne (t : Table) (d : Definition) {n : DefName} (h : d.name ≠ n) :
    (t.insert d).find? n = t.find? n := by
  simp only [find?, insert]
  induction t.entries with
  | nil => simp [insertEntry, h]
  | cons e es ih =>
    by_cases he : e.name = d.name
    · simp [insertEntry, he, h]
    · by_cases hn : e.name = n <;> simp_all [insertEntry]

end Table

end SelfTypes
