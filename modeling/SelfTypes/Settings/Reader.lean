import SelfTypes.Settings.Basic
import SelfTypes.Toml.Document
import SelfTypes.Trace

/-!
# Reading settings

Settings are read from a TOML document. A key that is not there leaves its default, keys of no
setting are passed over, and a value of the wrong type or range is an error. A file that does not
exist stands for the defaults, with a warning; one that cannot be read is an error.
-/

namespace SelfTypes

/-- Why settings could not be read. -/
inductive SettingsError where
  /-- The text is not a TOML document, or a setting has no value of its type in it. -/
  | malformed
  /-- There is no text to be had. -/
  | unreadable
  deriving DecidableEq, Inhabited

namespace Settings

/-- The budget of a document. -/
def fuelOf (es : Toml.Entries) : Except SettingsError (Option Nat) :=
  match es.lookup "fuel" with
  | none => .ok ({} : Settings).fuel
  | some (.integer n) => if 0 ≤ n ∧ n ≤ maxFuel then .ok (some n.toNat) else .error .malformed
  | some _ => .error .malformed

/-- A truth value of a document, with its default. -/
def flagOf (es : Toml.Entries) (key : String) (default : Bool) : Except SettingsError Bool :=
  match es.lookup key with
  | none => .ok default
  | some (.boolean b) => .ok b
  | some _ => .error .malformed

/-- The settings of a text. -/
def read (text : String) : Except SettingsError Settings :=
  match Toml.parse text with
  | none => .error .malformed
  | some es => do
    let fuel ← fuelOf es
    let subsumption ← flagOf es "subsumption" ({} : Settings).subsumption
    let parallel ← flagOf es "parallel" ({} : Settings).parallel
    return { fuel, subsumption, parallel }

/-- What is found in the place of a settings file. -/
inductive Found where
  /-- Nothing. -/
  | missing
  /-- Something that cannot be read as a file. -/
  | unreadable
  /-- A file. -/
  | file (bytes : ByteArray)

/-- The settings found at a path, with the events of looking for them. -/
def load (path : String) : Found → Except SettingsError Settings × Trace
  | .missing => (.ok {}, [.defaultSettings path])
  | .unreadable => (.error .unreadable, [])
  | .file bytes =>
    match String.fromUTF8? bytes with
    | some text => (read text, [])
    | none => (.error .unreadable, [])

end Settings

end SelfTypes
