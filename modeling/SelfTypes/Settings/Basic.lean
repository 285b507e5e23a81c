/-!
# Settings

What a build can be told: how many reduction steps each definition may take, whether found types
are compared with expected ones, and whether definitions are checked side by side. The written
form of settings has one line for each of them, except that an unlimited budget is left out.
-/

namespace SelfTypes

/-- The settings of a build. -/
structure Settings where
  /-- The reduction steps allowed for each definition; no limit if absent. -/
  fuel : Option Nat := none
  /-- Whether the type a term is found to have is compared with the expected one. -/
  subsumption : Bool := true
  /-- Whether the definitions of a build are checked side by side. -/
  parallel : Bool := false
  deriving DecidableEq, Inhabited

namespace Settings

/-- The largest number of reduction steps that settings can allow. -/
def maxFuel : Nat := Nat.pow 2 64 - 1

/-- A line that gives a setting its value. -/
def line (key value : String) : String :=
  s!"{key} = {value}\n"

/-- The word for a truth value. -/
def flagText (b : Bool) : String :=
  if b then "true" else "false"

/-- The written form of settings. -/
def write (s : Settings) : String :=
  let fuel := match s.fuel with
    | some n => line "fuel" (Nat.repr n)
    | none => ""
  fuel ++ line "subsumption" (flagText s.subsumption) ++ line "parallel" (flagText s.parallel)

end Settings

end SelfTypes
