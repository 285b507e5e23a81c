import Mathlib.Data.Int.Init
import Mathlib.Data.List.Nodup
import Mathlib.Data.List.TakeDrop
import SelfTypes.Toml.Document

/-!
# Plain documents

The simplest documents have one line for each entry, with a key without quotes and a number or a
truth value. Main statements: `scalarValue_toDigits`, by which a number that 128 bits can hold is
read back from its decimal digits, and `parse_plain`, by which a document of plain lines with
different keys has the entries of its lines.
-/

namespace SelfTypes.Toml

/-! ## Decimals -/

theorem digitGroups_of_isDigit {cs : List Char} (h : ∀ c ∈ cs, c.isDigit = true) (afterDigit : Bool)
    (hne : cs ≠ [] ∨ afterDigit = true) : digitGroups Char.isDigit afterDigit cs = some cs := by
  induction cs generalizing afterDigit with
  | nil =>
    have hafter : afterDigit = true := hne.resolve_left fun hnil => hnil rfl
    simp only [digitGroups, hafter, if_true]
  | cons c cs ih =>
    rw [List.forall_mem_cons] at h
    simp only [digitGroups, h.1, if_true, ih h.2 true (.inr rfl), Option.map_eq_map,
      Option.map_some]

/-- The decimal digits of a number do not start with a zero that another digit follows. -/
theorem toDigits_ne_zero_cons (n : Nat) (c : Char) (cs : List Char) :
    Nat.toDigits 10 n ≠ '0' :: c :: cs := by
  induction n using Nat.strongRecOn generalizing c cs with
  | ind n ih =>
    intro h
    rcases Nat.lt_or_ge n 10 with hlt | hge
    · rw [Nat.toDigits_of_lt_base hlt, List.cons.injEq] at h
      cases h.2
    · rw [Nat.toDigits_of_base_le (by decide) hge] at h
      -- the digits before the last one start with the zero too, and they are not just a zero
      cases hfront : Nat.toDigits 10 (n / 10) with
      | nil => exact Nat.toDigits_ne_nil hfront
      | cons d ds =>
        rw [hfront, List.cons_append, List.cons.injEq] at h
        obtain ⟨rfl, -⟩ := h
        cases ds with
        | nil =>
          have hzero : n / 10 = 0 := by
            rw [← Nat.ofDigitChars_ten_toDigits (n := n / 10), hfront]
            rfl
          omega
        | cons e es => exact ih (n / 10) (by omega) e es hfront

theorem isDigit_of_mem_decimal {n : Nat} {c : Char} (h : c ∈ Nat.toDigits 10 n) :
    c.isDigit = true :=
  Nat.isDigit_of_mem_toDigits (by decide) (Nat.le_refl 10) h

theorem decimal?_toDigits (n : Nat) : decimal? (Nat.toDigits 10 n) = some n := by
  have hdigits : digitGroups Char.isDigit false (Nat.toDigits 10 n) = some (Nat.toDigits 10 n) :=
    digitGroups_of_isDigit (fun _ h => isDigit_of_mem_decimal h) false (.inl Nat.toDigits_ne_nil)
  have hplain : decimalDigits? (Nat.toDigits 10 n) = some (Nat.toDigits 10 n) := by
    unfold decimalDigits?
    rw [hdigits]
    split
    · rename_i c cs heq
      exact absurd (Option.some.inj heq) (toDigits_ne_zero_cons n c cs)
    · rfl
  rw [decimal?, hplain]
  exact congrArg some Nat.ofDigitChars_ten_toDigits

/-- Digits are read as a decimal without a sign, whatever bases the marks behind a zero stand
for. -/
theorem anyInteger?_of_isDigit {cs : List Char} (h : ∀ c ∈ cs, c.isDigit = true) :
    anyInteger? cs = Int.ofNat <$> decimal? cs := by
  unfold anyInteger?
  -- a prefix of another base has a letter after the zero, and these are digits
  split
  · exact absurd (h 'x' (by simp)) (by decide)
  · exact absurd (h 'o' (by simp)) (by decide)
  · exact absurd (h 'b' (by simp)) (by decide)
  · have hsign : splitSign cs = (false, cs) := by
      unfold splitSign
      split
      · exact absurd (h '-' (by simp)) (by decide)
      · exact absurd (h '+' (by simp)) (by decide)
      · rfl
    rw [hsign]

theorem integer?_toDigits {n : Nat} (hn : n < Nat.pow 2 128) :
    integer? (Nat.toDigits 10 n) = some (n : Int) := by
  have hany : anyInteger? (Nat.toDigits 10 n) = some (n : Int) := by
    rw [anyInteger?_of_isDigit fun _ h => isDigit_of_mem_decimal h, decimal?_toDigits]
    rfl
  have hrange : -(Int.pow 2 127) ≤ (n : Int) ∧ (n : Int) < Int.pow 2 128 := by
    have hlow : -(Int.pow 2 127) ≤ 0 := by decide
    have hhigh : ((Nat.pow 2 128 : Nat) : Int) = Int.pow 2 128 := by decide
    exact ⟨Int.le_trans hlow (Int.natCast_nonneg n), hhigh ▸ Int.ofNat_lt.2 hn⟩
  rw [integer?, hany, Option.bind_eq_bind, Option.bind_some, if_pos hrange]

theorem scalarValue_toDigits {n : Nat} (hn : n < Nat.pow 2 128) :
    scalarValue (Nat.toDigits 10 n) = some (.integer n) := by
  have hword : ∀ w : List Char, (∃ c ∈ w, c.isDigit = false) → Nat.toDigits 10 n ≠ w := by
    rintro w ⟨c, hc, hnot⟩ rfl
    rw [isDigit_of_mem_decimal hc] at hnot
    cases hnot
  rw [scalarValue, if_neg (hword _ ⟨'t', by decide, by decide⟩),
    if_neg (hword _ ⟨'f', by decide, by decide⟩), integer?_toDigits hn]

/-! ## Plain lines -/

/-- A line that gives a key without quotes the value that some characters spell. -/
structure PlainLine where
  key : List Char
  spelling : List Char
  value : Value
  key_ne_nil : key ≠ []
  bare : key.all isBareKeyChar = true
  spelling_ne_nil : spelling ≠ []
  scalar : spelling.all isScalarChar = true
  spells : scalarValue spelling = some value

namespace PlainLine

/-- The characters of a line with its end. -/
def chars (l : PlainLine) : List Char :=
  l.key ++ " = ".toList ++ l.spelling ++ ['\n']

/-- The entry that a line makes. -/
def entry (l : PlainLine) : String × Value :=
  (String.ofList l.key, l.value)

end PlainLine

/-- A character that starts neither a blank nor a quote, a bracket, a comment, a mark or a line
end. -/
structure IsPlainStart (c : Char) : Prop where
  notBlank : isBlank c = false
  notQuote : c ≠ '"' ∧ c ≠ '\''
  notBracket : c ≠ '[' ∧ c ≠ '\x7b'
  notMark : c ≠ '#' ∧ c ≠ '\ufeff'
  notEnd : c ≠ '\n' ∧ c ≠ '\r'

/-- The characters that start none. -/
def reservedStarts : List Char :=
  [' ', '\t', '"', '\'', '[', '\x7b', '#', '\ufeff', '\n', '\r']

theorem isPlainStart_of {p : Char → Bool} {c : Char} (hc : p c = true)
    (hp : reservedStarts.any p = false) : IsPlainStart c := by
  have hne : ∀ d ∈ reservedStarts, c ≠ d := by
    rintro d hd rfl
    exact List.any_eq_false.1 hp c hd hc
  simp only [reservedStarts, List.forall_mem_cons] at hne
  obtain ⟨h₁, h₂, h₃, h₄, h₅, h₆, h₇, h₈, h₉, h₁₀, -⟩ := hne
  exact ⟨by simp [isBlank, h₁, h₂], ⟨h₃, h₄⟩, ⟨h₅, h₆⟩, ⟨h₇, h₈⟩, ⟨h₉, h₁₀⟩⟩

theorem isPlainStart_of_bare {c : Char} (h : isBareKeyChar c = true) : IsPlainStart c :=
  isPlainStart_of h (by decide)

theorem isPlainStart_of_scalar {c : Char} (h : isScalarChar c = true) : IsPlainStart c :=
  isPlainStart_of h (by decide)

section

variable {c : Char} (hc : IsPlainStart c) (cs : List Char)

include hc

theorem skipBlanks_of_isPlainStart : skipBlanks (c :: cs) = c :: cs :=
  List.dropWhile_cons_of_neg (by simp [hc.notBlank])

theorem skipTrivia_of_isPlainStart : skipTrivia false (c :: cs) = some (c :: cs) := by
  simp [skipTrivia, hc.notBlank, hc.notMark.1, hc.notEnd.1, hc.notEnd.2]

theorem dropMark_of_isPlainStart : dropMark (c :: cs) = c :: cs := by
  simp [dropMark, hc.notMark.2]

end

theorem takeWhile_append_cons {p : Char → Bool} {cs : List Char} (h : ∀ c ∈ cs, p c = true)
    {d : Char} (hd : p d = false) (rest : List Char) : (cs ++ d :: rest).takeWhile p = cs := by
  rw [List.takeWhile_append_of_pos h, List.takeWhile_cons_of_neg (by simp [hd]), List.append_nil]

theorem simpleKey_bare {key : List Char} (hne : key ≠ [])
    (hbare : ∀ c ∈ key, isBareKeyChar c = true) {d : Char} (hd : isBareKeyChar d = false)
    (rest : List Char) :
    simpleKey (key ++ d :: rest) = some (String.ofList key, d :: rest) := by
  have htake := takeWhile_append_cons hbare hd rest
  cases key with
  | nil => exact absurd rfl hne
  | cons c cs =>
    have hc := isPlainStart_of_bare (hbare c List.mem_cons_self)
    unfold simpleKey
    split
    -- a quoted key starts with a quote, and a bare one does not
    · rename_i heq
      exact absurd (List.cons.inj heq).1 hc.notQuote.1
    · rename_i heq
      exact absurd (List.cons.inj heq).1 hc.notQuote.2
    · simp only [htake, List.isEmpty_cons, Bool.false_eq_true, if_false, List.drop_left]

/-- Plain characters are not passed over as blanks. -/
theorem skipBlanks_append {cs : List Char} (hne : cs ≠ []) (h : ∀ c ∈ cs, IsPlainStart c)
    (rest : List Char) : skipBlanks (cs ++ rest) = cs ++ rest := by
  cases cs with
  | nil => exact absurd rfl hne
  | cons c cs => exact skipBlanks_of_isPlainStart (h c List.mem_cons_self) (cs ++ rest)

theorem dottedKey_bare {key : List Char} (hne : key ≠ [])
    (hbare : ∀ c ∈ key, isBareKeyChar c = true) (rest : List Char) :
    dottedKey (key ++ ' ' :: '=' :: rest) = some (([], String.ofList key), '=' :: rest) := by
  have hstart := skipBlanks_append hne (fun c hc => isPlainStart_of_bare (hbare c hc))
    (' ' :: '=' :: rest)
  have hkey := simpleKey_bare (d := ' ') hne hbare rfl ('=' :: rest)
  unfold dottedKey maxKeyParts keyParts
  rw [hstart, hkey]
  rfl

theorem scalar_plain {spelling : List Char} (hscalar : ∀ c ∈ spelling, isScalarChar c = true)
    {v : Value} (hspells : scalarValue spelling = some v) (rest : List Char) :
    scalar (spelling ++ '\n' :: rest) = some (v, '\n' :: rest) := by
  -- the line break ends the scalar
  have hend : isScalarChar '\n' = false := rfl
  have hdrop : (spelling ++ '\n' :: rest).dropWhile isScalarChar = '\n' :: rest := by
    rw [List.dropWhile_append_of_pos hscalar, List.dropWhile_cons_of_neg (by simp [hend])]
  have hchars : scalarChars (spelling ++ '\n' :: rest) = (spelling, '\n' :: rest) := by
    unfold scalarChars
    rw [List.span_eq_takeWhile_dropWhile, takeWhile_append_cons hscalar hend, hdrop]
    rfl
  simp only [scalar, hchars, hspells, Option.bind_eq_bind, Option.bind_some, Option.pure_def]

/-- A number or truth value at the end of a line is read up to it. -/
theorem value_plain {spelling : List Char} (hne : spelling ≠ [])
    (hscalar : ∀ c ∈ spelling, isScalarChar c = true) {v : Value}
    (hspells : scalarValue spelling = some v) (room fuel : Nat) (rest : List Char) :
    value room (fuel + 1) (spelling ++ '\n' :: rest) = some (v, '\n' :: rest) := by
  have hread := scalar_plain hscalar hspells rest
  cases spelling with
  | nil => exact absurd rfl hne
  | cons c cs =>
    have hc := isPlainStart_of_scalar (hscalar c List.mem_cons_self)
    rw [List.cons_append] at hread ⊢
    unfold value
    split
    -- a plain spelling opens neither an array nor a table nor a string
    · rename_i heq
      exact absurd (List.cons.inj heq).1 hc.notBracket.1
    · rename_i heq
      exact absurd (List.cons.inj heq).1 hc.notBracket.2
    · rename_i heq
      obtain ⟨rfl, rfl⟩ := List.cons.inj heq
      rw [if_neg (not_or.2 hc.notQuote), hread]
    · rename_i heq
      cases heq

/-! ## Plain documents -/

theorem addKey_new {key : String} {es : Entries} (hnew : key ∉ es.map Prod.fst) (v : Value) :
    es.addKey key v [] false .header = some (es ++ [(key, v)]) := by
  have hlookup : es.lookup key = none := by
    rw [List.lookup_eq_none_iff]
    intro e he
    have hne : key ≠ e.1 := fun heq => hnew (heq ▸ List.mem_map_of_mem he)
    exact bne_iff_ne.2 hne
  simp [Entries.addKey, hlookup]

namespace PlainLine

variable (l : PlainLine)

theorem exists_chars_eq_cons : ∃ c cs, IsPlainStart c ∧ l.chars = c :: cs := by
  obtain ⟨c, cs, hkey⟩ := List.exists_cons_of_ne_nil l.key_ne_nil
  have hc : isBareKeyChar c = true := List.all_eq_true.1 l.bare c (hkey ▸ List.mem_cons_self)
  refine ⟨c, cs ++ " = ".toList ++ l.spelling ++ ['\n'], isPlainStart_of_bare hc, ?_⟩
  rw [chars, hkey]
  rfl

theorem length_le_length_flatMap_chars (ls : List PlainLine) :
    ls.length ≤ (ls.flatMap chars).length := by
  induction ls with
  | nil => exact Nat.le_refl 0
  | cons l ls ih =>
    obtain ⟨c, cs, -, heq⟩ := l.exists_chars_eq_cons
    simp only [List.flatMap_cons, heq, List.length_append, List.length_cons]
    omega

/-- A plain line is a statement that adds its entry. -/
theorem statement_chars {es : Entries} (hnew : l.entry.1 ∉ es.map Prod.fst) (rest : List Char) :
    statement ⟨es, []⟩ (l.chars ++ rest) = some (⟨es ++ [l.entry], []⟩, '\n' :: rest) := by
  have hchars : l.chars ++ rest = l.key ++ ' ' :: '=' :: ' ' :: (l.spelling ++ '\n' :: rest) := by
    simp [chars]
  have hscalar := List.all_eq_true.1 l.scalar
  have hkey := dottedKey_bare l.key_ne_nil (List.all_eq_true.1 l.bare)
    (' ' :: (l.spelling ++ '\n' :: rest))
  have hblank : skipBlanks (' ' :: (l.spelling ++ '\n' :: rest)) = l.spelling ++ '\n' :: rest :=
    skipBlanks_append l.spelling_ne_nil (fun c hc => isPlainStart_of_scalar (hscalar c hc)) _
  -- a bracket would have made the line a header
  have hfirst : ∀ cs, l.chars ++ rest ≠ '[' :: cs := by
    obtain ⟨c, cs, hc, heq⟩ := l.exists_chars_eq_cons
    intro cs' h
    rw [heq] at h
    exact hc.notBracket.1 (List.cons.inj h).1
  have hadd : es.addKey (String.ofList l.key) l.value [] false .header = some (es ++ [l.entry]) :=
    addKey_new hnew l.value
  have hvalue := fun fuel => value_plain l.spelling_ne_nil hscalar l.spells maxNesting fuel rest
  rw [← hchars] at hkey
  unfold statement
  split
  · rename_i heq
    exact absurd heq (hfirst _)
  · rename_i heq
    exact absurd heq (hfirst _)
  · simp only [hkey, expect, if_true, hblank, hvalue, Entries.atPath, hadd,
      Option.bind_eq_bind, Option.bind_some, Option.pure_def]

theorem statements_chars {es : Entries} (hnew : l.entry.1 ∉ es.map Prod.fst) (fuel : Nat)
    (rest : List Char) :
    statements (fuel + 1) ⟨es, []⟩ (l.chars ++ rest) =
      statements fuel ⟨es ++ [l.entry], []⟩ rest := by
  have hstatement := l.statement_chars hnew rest
  obtain ⟨c, cs, hc, heq⟩ := l.exists_chars_eq_cons
  rw [heq, List.cons_append] at hstatement ⊢
  have hend : ∀ p, statements fuel p ('\n' :: rest) = statements fuel p rest := fun p => by
    cases fuel <;> rfl
  rw [statements, skipTrivia_of_isPlainStart hc]
  simp only [hstatement, Option.bind_eq_bind, Option.bind_some]
  exact hend _

end PlainLine

/-- Plain lines add their entries in turn. -/
theorem statements_plain (ls : List PlainLine) {es : Entries}
    (hnodup : ((es ++ ls.map PlainLine.entry).map Prod.fst).Nodup) {fuel : Nat}
    (hfuel : ls.length < fuel) :
    statements fuel ⟨es, []⟩ (ls.flatMap PlainLine.chars) =
      some (es ++ ls.map PlainLine.entry) := by
  induction ls generalizing es fuel with
  | nil =>
    obtain ⟨fuel, rfl⟩ := Nat.exists_eq_succ_of_ne_zero (Nat.ne_zero_of_lt hfuel)
    rw [List.map_nil, List.append_nil]
    rfl
  | cons l ls ih =>
    obtain ⟨fuel, rfl⟩ := Nat.exists_eq_succ_of_ne_zero (Nat.ne_zero_of_lt hfuel)
    -- no key comes twice, so the next one can be added
    have hnew : l.entry.1 ∉ es.map Prod.fst := by
      rw [List.map_append] at hnodup
      exact fun hmem => (List.nodup_append.1 hnodup).2.2 _ hmem _ List.mem_cons_self rfl
    rw [List.map_cons, List.append_cons] at hnodup ⊢
    rw [List.flatMap_cons, l.statements_chars hnew, ih hnodup (Nat.lt_of_succ_lt_succ hfuel)]

/-- A document of plain lines with different keys has the entries of its lines. -/
theorem parse_plain (ls : List PlainLine)
    (hnodup : ((ls.map PlainLine.entry).map Prod.fst).Nodup) :
    parse (String.ofList (ls.flatMap PlainLine.chars)) = some (ls.map PlainLine.entry) := by
  have hmark : dropMark (ls.flatMap PlainLine.chars) = ls.flatMap PlainLine.chars := by
    cases ls with
    | nil => rfl
    | cons l ls =>
      obtain ⟨c, cs, hc, heq⟩ := l.exists_chars_eq_cons
      rw [List.flatMap_cons, heq]
      exact dropMark_of_isPlainStart hc _
  have hfuel := Nat.lt_succ_of_le (PlainLine.length_le_length_flatMap_chars ls)
  rw [parse, String.toList_ofList, hmark]
  exact statements_plain ls hnodup hfuel

end SelfTypes.Toml
