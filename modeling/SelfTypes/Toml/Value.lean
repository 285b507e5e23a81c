/-!
# TOML values

Values and tables of a TOML document. A table remembers how it came to be, because that decides
what later lines of the document may add to it. This module holds the three ways to add to a
table: a key with a value, a table header and a header of an array of tables.
-/

namespace SelfTypes.Toml

/-- How a table came to be. -/
inductive Origin where
  /-- By a header of its own, or as the document itself. -/
  | header
  /-- As a part of the path in the header of another table. -/
  | implied
  /-- As a part of a dotted key. -/
  | dotted
  /-- Written out as a value. -/
  | inline
  deriving DecidableEq, Inhabited

/-- A value. Numbers with a fraction and dates are kept as they are spelled. -/
inductive Value where
  | integer (n : Int)
  | float (spelling : String)
  | boolean (b : Bool)
  | dateTime (spelling : String)
  | string (s : String)
  | array (items : List Value)
  | table (origin : Origin) (entries : List (String × Value))
  /-- An array of tables, the latest first, each written under a header of its own. -/
  | tables (items : List (List (String × Value)))
  deriving Inhabited

/-- The keys of a table with their values, in order. -/
abbrev Entries := List (String × Value)

namespace Entries

/-- Entries with another value for a key that is among them. -/
def replace (es : Entries) (key : String) (v : Value) : Entries :=
  es.map fun e => if e.1 = key then (key, v) else e

/-- Whether keys with dots may go on into a table. -/
def extensible : Origin → Bool
  | .implied | .dotted => true
  | .header | .inline => false

/-- Adds a key with its value below a path of keys. `origin` is that of the table itself and
`entered` tells whether the path has led into it; a path may lead into the tables that dotted keys
have made and no others, and each key is given a value once. -/
def addKey (key : String) (v : Value) :
    (path : List String) → (entered : Bool) → Origin → Entries → Option Entries
  | [], entered, origin, es =>
    if (origin == .dotted) != entered then none
    else if (es.lookup key).isSome then none
    else some (es ++ [(key, v)])
  | k :: path, _, _, es =>
    match es.lookup k with
    | none => do
      let sub ← addKey key v path true .dotted []
      return es ++ [(k, .table .dotted sub)]
    | some (.table origin sub) =>
      if extensible origin then do
        let sub ← addKey key v path true origin sub
        return es.replace k (.table origin sub)
      else none
    | some (.tables (latest :: earlier)) => do
      let latest ← addKey key v path true .header latest
      return es.replace k (.tables (latest :: earlier))
    | some _ => none

/-- Changes the table at the end of a header's path. Tables on the way are made if there are
none, and of an array of tables the latest one counts. -/
def atPath (change : Entries → Option Entries) : (path : List String) → Entries → Option Entries
  | [], es => change es
  | k :: path, es =>
    match es.lookup k with
    | none => do
      let sub ← atPath change path []
      return es ++ [(k, .table .implied sub)]
    | some (.table origin sub) =>
      if origin = .inline then none
      else do
        let sub ← atPath change path sub
        return es.replace k (.table origin sub)
    | some (.tables (latest :: earlier)) => do
      let latest ← atPath change path latest
      return es.replace k (.tables (latest :: earlier))
    | some _ => none

/-- Opens the table of a header. A table that was only implied so far may be opened, once. -/
def openTable (key : String) (es : Entries) : Option Entries :=
  match es.lookup key with
  | none => some (es ++ [(key, .table .header [])])
  | some (.table .implied sub) => some (es.replace key (.table .header sub))
  | some _ => none

/-- Opens one more table of an array of tables. -/
def openItem (key : String) (es : Entries) : Option Entries :=
  match es.lookup key with
  | none => some (es ++ [(key, .tables [[]])])
  | some (.tables items) => some (es.replace key (.tables ([] :: items)))
  | some _ => none

end Entries

end SelfTypes.Toml
