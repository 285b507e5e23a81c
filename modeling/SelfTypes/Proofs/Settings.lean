import SelfTypes.Proofs.Toml.Plain
import SelfTypes.Settings.Reader

/-!
# Written settings are read back

The written form of settings is a document of plain lines, so its entries are known, and the reader
finds the settings in them again: a budget that was left out by the default, and one that was
written by its digits, up to the largest word. Main statement: `read_write`.
-/

namespace SelfTypes.Settings

open Toml

/-! ## The lines of settings -/

/-- The line of a budget. -/
def fuelLine (n : Nat) (hn : n < Nat.pow 2 128) : PlainLine where
  key := "fuel".toList
  spelling := Nat.toDigits 10 n
  value := .integer n
  key_ne_nil := by decide
  bare := by decide
  spelling_ne_nil := Nat.toDigits_ne_nil
  -- digits are scalar characters, and nothing ends the value before the line does
  scalar := by
    refine List.all_eq_true.2 fun c hc => ?_
    simp [isScalarChar, Char.isAlphanum, isDigit_of_mem_decimal hc]
  spells := scalarValue_toDigits hn

/-- The line of a truth value. -/
def flagLine (key : String) (hne : key.toList ≠ [])
    (hbare : key.toList.all isBareKeyChar = true) (b : Bool) : PlainLine where
  key := key.toList
  spelling := (flagText b).toList
  value := .boolean b
  key_ne_nil := hne
  bare := hbare
  spelling_ne_nil := by cases b <;> decide
  scalar := by cases b <;> decide
  spells := by cases b <;> rfl

/-- The entries of the written form of settings. -/
def entries (s : Settings) : Entries :=
  s.fuel.toList.map (fun n => ("fuel", .integer n)) ++
    [("subsumption", .boolean s.subsumption), ("parallel", .boolean s.parallel)]

/-- A plain line is written like the line of a setting. -/
theorem ofList_chars (l : PlainLine) :
    String.ofList l.chars = line (String.ofList l.key) (String.ofList l.spelling) := by
  simp only [PlainLine.chars, String.ofList_append, String.ofList_toList]
  rfl

theorem exists_plainLines {s : Settings} (h : ∀ n ∈ s.fuel, n ≤ maxFuel) :
    ∃ ls : List PlainLine, s.write = String.ofList (ls.flatMap PlainLine.chars) ∧
      ls.map PlainLine.entry = s.entries := by
  let flags : List PlainLine :=
    [flagLine "subsumption" (by decide) (by decide) s.subsumption,
      flagLine "parallel" (by decide) (by decide) s.parallel]
  -- without a limit there is no line for the fuel
  obtain ⟨_ | n, subsumption, parallel⟩ := s
  · refine ⟨flags, ?_, rfl⟩
    simp [flags, write, ofList_chars, flagLine]
  · have hmax : n ≤ maxFuel := h n rfl
    have hn : n < Nat.pow 2 128 := Nat.lt_of_le_of_lt hmax (by decide)
    refine ⟨fuelLine n hn :: flags, ?_, rfl⟩
    simp [flags, write, ofList_chars, flagLine, fuelLine, Nat.repr_eq_ofList_toDigits,
      String.append_assoc]

theorem nodup_keys_entries (s : Settings) : (s.entries.map Prod.fst).Nodup := by
  obtain ⟨_ | n, subsumption, parallel⟩ := s <;> simp [entries]

theorem parse_write {s : Settings} (h : ∀ n ∈ s.fuel, n ≤ maxFuel) :
    parse s.write = some s.entries := by
  obtain ⟨ls, hwrite, hentries⟩ := exists_plainLines h
  have hnodup : ((ls.map PlainLine.entry).map Prod.fst).Nodup := by
    rw [hentries]
    exact s.nodup_keys_entries
  rw [hwrite, parse_plain ls hnodup, hentries]

/-! ## Reading them -/

theorem fuelOf_entries {s : Settings} (h : ∀ n ∈ s.fuel, n ≤ maxFuel) :
    fuelOf s.entries = .ok s.fuel := by
  obtain ⟨_ | n, subsumption, parallel⟩ := s
  · rfl
  · have hmax : n ≤ maxFuel := h n rfl
    -- the limit was in range when it was written, so the reader does not refuse it
    have hrange : 0 ≤ (n : Int) ∧ (n : Int) ≤ maxFuel :=
      ⟨Int.natCast_nonneg n, by exact_mod_cast hmax⟩
    have hlookup : (entries ⟨some n, subsumption, parallel⟩).lookup "fuel" = some (.integer n) :=
      rfl
    simp only [fuelOf, hlookup, hrange, and_self, if_true, Int.toNat_natCast]

theorem flagOf_entries (s : Settings) (default : Bool) :
    flagOf s.entries "subsumption" default = .ok s.subsumption ∧
      flagOf s.entries "parallel" default = .ok s.parallel := by
  obtain ⟨_ | n, subsumption, parallel⟩ := s <;> exact ⟨rfl, rfl⟩

/-- Settings without a limit, or with one that is a word, are read back from their written form. -/
theorem read_write (s : Settings) (h : ∀ n ∈ s.fuel, n ≤ maxFuel) : read s.write = .ok s := by
  unfold read
  rw [parse_write h]
  simp only [fuelOf_entries h, flagOf_entries]
  rfl

/-- The largest limit. -/
theorem read_write_maxFuel :
    (∀ n ∈ (some 18446744073709551615 : Option Nat), n ≤ maxFuel) ∧
    write ⟨some 18446744073709551615, false, true⟩ =
      "fuel = 18446744073709551615\nsubsumption = false\nparallel = true\n" ∧
    read (write ⟨some 18446744073709551615, false, true⟩) =
      .ok ⟨some 18446744073709551615, false, true⟩ := by
  have h : ∀ n ∈ (some 18446744073709551615 : Option Nat), n ≤ maxFuel := by decide
  exact ⟨h, rfl, read_write ⟨some 18446744073709551615, false, true⟩ h⟩

end SelfTypes.Settings
