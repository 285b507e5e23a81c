import SelfTypes.Toml.DateTime
import SelfTypes.Toml.Number
import SelfTypes.Toml.Quoted

/-!
# TOML documents

`Toml.parse` reads a document: lines that give keys values or open tables, comments and blank
lines. It gives the entries of the document's table, or nothing if the text breaks a rule of the
format. Lines may end in a line feed or in a carriage return and a line feed, and a byte-order
mark may stand in front. Keys have at most `maxKeyParts` parts, and brackets and braces of values
stand at most `maxNesting` deep in each other.
-/

namespace SelfTypes.Toml

/-- What a reader finds at the start of the characters, and the characters after it. -/
abbrev Reader (α : Type) := List Char → Option (α × List Char)

/-! ## Blanks and comments -/

/-- Characters without the blanks at their start. -/
def skipBlanks (cs : List Char) : List Char :=
  cs.dropWhile isBlank

/-- Characters without the blanks, line ends and comments at their start. -/
def skipTrivia : (inComment : Bool) → List Char → Option (List Char)
  | _, [] => some []
  | _, '\n' :: rest => skipTrivia false rest
  | _, '\r' :: '\n' :: rest => skipTrivia false rest
  | inComment, c :: rest =>
    if inComment then
      if isPlain c then skipTrivia true rest else none
    else if isBlank c then skipTrivia false rest
    else if c = '#' then skipTrivia true rest
    else some (c :: rest)

/-- Whether only blanks and a comment stand before the end of the line. -/
def atLineEnd (cs : List Char) : Bool :=
  match skipBlanks cs with
  | [] => true
  | c :: rest => c = '#' || startsLine (c :: rest)

/-! ## Keys -/

/-- Whether a character may stand in a key without quotes. -/
def isBareKeyChar (c : Char) : Bool :=
  c.isAlphanum || c = '_' || c = '-'

/-- A key without dots. -/
def simpleKey : Reader String
  | '"' :: rest => do
    let (key, rest) ← basicString rest
    return (String.ofList key, rest)
  | '\'' :: rest => do
    let (key, rest) ← literalString rest
    return (String.ofList key, rest)
  | cs =>
    let key := cs.takeWhile isBareKeyChar
    if key.isEmpty then none else some (String.ofList key, cs.drop key.length)

/-- The most parts a key has. -/
def maxKeyParts : Nat := 80

/-- A key of at most so many parts as the path in front of its last part and that part; blanks may
stand around the parts. -/
def keyParts : (most : Nat) → Reader (List String × String)
  | 0, _ => none
  | most + 1, cs => do
    let (key, rest) ← simpleKey (skipBlanks cs)
    match skipBlanks rest with
    | '.' :: rest => do
      let ((path, last), rest) ← keyParts most rest
      return ((key :: path, last), rest)
    | rest => return (([], key), rest)

/-- A key, which may have dots. -/
def dottedKey : Reader (List String × String) :=
  keyParts maxKeyParts

/-! ## Values -/

/-- Whether a character may stand in a number, a date or a truth value. -/
def isScalarChar (c : Char) : Bool :=
  c.isAlphanum || c = '_' || c = '-' || c = '+' || c = '.' || c = ':'

/-- The value of characters that hold neither quotes nor brackets. -/
def scalarValue (cs : List Char) : Option Value :=
  if cs = "true".toList then some (.boolean true)
  else if cs = "false".toList then some (.boolean false)
  else match integer? cs with
    | some n => some (.integer n)
    | none =>
      if isFloat cs then some (.float (String.ofList cs))
      else if isDateTime cs then some (.dateTime (String.ofList cs))
      else none

/-- The characters of a number, a date or a truth value. A blank may stand between a date and a
time. -/
def scalarChars (cs : List Char) : List Char × List Char :=
  let (first, rest) := cs.span isScalarChar
  match rest with
  | ' ' :: c :: rest' =>
    -- only a date is read on past a blank
    if isDate first && c.isDigit then
      let (second, rest) := (c :: rest').span isScalarChar
      (first ++ ' ' :: second, rest)
    else (first, rest)
  | _ => (first, rest)

/-- A number, a date or a truth value. -/
def scalar (cs : List Char) : Option (Value × List Char) := do
  let (chars, rest) := scalarChars cs
  return (← scalarValue chars, rest)

/-- How deep the brackets and braces of a value may stand in each other. -/
def maxNesting : Nat := 80

mutual

/-- A value. `room` is the number of brackets and braces that may stand in each other in it, and
`fuel` bounds the number of values. -/
def value (room : Nat) : (fuel : Nat) → Reader Value
  | 0, _ => none
  | fuel + 1, cs =>
    match cs with
    | '[' :: rest =>
      if room = 0 then none
      else do
        let (items, rest) ← arrayItems (room - 1) fuel (← skipTrivia false rest)
        return (.array items, rest)
    | '\x7b' :: rest =>
      if room = 0 then none
      else do
        let (entries, rest) ← inlineEntries (room - 1) fuel [] (← skipTrivia false rest)
        return (.table .inline entries, rest)
    | c :: rest =>
      if c = '"' ∨ c = '\'' then do
        let (s, rest) ← quotedString (c :: rest)
        return (.string (String.ofList s), rest)
      else scalar (c :: rest)
    | [] => none

/-- The items of an array up to its closing bracket; a comma may follow the last one. -/
def arrayItems (room : Nat) : (fuel : Nat) → Reader (List Value)
  | 0, _ => none
  | fuel + 1, cs =>
    match cs with
    | ']' :: rest => some ([], rest)
    | cs => do
      let (item, rest) ← value room fuel cs
      match ← skipTrivia false rest with
      | ',' :: rest => do
        let (items, rest) ← arrayItems room fuel (← skipTrivia false rest)
        return (item :: items, rest)
      | ']' :: rest => return ([item], rest)
      | _ => none

/-- The entries of a table that is written as a value, added to `es`, up to its closing brace; a
comma may follow the last one. Lines may end, and comments stand, between any two parts of it, but
not within a key. -/
def inlineEntries (room : Nat) : (fuel : Nat) → Entries → Reader Entries
  | 0, _, _ => none
  | fuel + 1, es, cs =>
    match cs with
    | '\x7d' :: rest => some (es, rest)
    | cs => do
      let ((path, key), rest) ← dottedKey cs
      let rest ← expect '=' (← skipTrivia false rest)
      let (v, rest) ← value room fuel (← skipTrivia false rest)
      let es ← es.addKey key v path false .inline
      match ← skipTrivia false rest with
      | ',' :: rest => inlineEntries room fuel es (← skipTrivia false rest)
      | '\x7d' :: rest => return (es, rest)
      | _ => none

end

/-! ## Lines -/

/-- What has been read of a document: its entries, and the path of the table that keys are added
to. -/
structure Progress where
  entries : Entries := []
  current : List String := []
  deriving Inhabited

/-- The key of a header up to its closing bracket. -/
def headerKey (cs : List Char) : Option ((List String × String) × List Char) := do
  let (key, rest) ← dottedKey cs
  return (key, ← expect ']' rest)

/-- A line that is not blank: a header of an array of tables, a header of a table, or a key with a
value. -/
def statement (p : Progress) : Reader Progress
  | '[' :: '[' :: rest => do
    let ((path, key), rest) ← headerKey rest
    let rest ← expect ']' rest
    let entries ← p.entries.atPath (Entries.openItem key) path
    return (⟨entries, path ++ [key]⟩, rest)
  | '[' :: rest => do
    let ((path, key), rest) ← headerKey rest
    let entries ← p.entries.atPath (Entries.openTable key) path
    return (⟨entries, path ++ [key]⟩, rest)
  | cs => do
    let ((path, key), rest) ← dottedKey cs
    let rest ← expect '=' rest
    let (v, rest) ← value maxNesting (2 * cs.length + 2) (skipBlanks rest)
    let entries ← p.entries.atPath (Entries.addKey key v path false .header) p.current
    return ({ p with entries }, rest)

/-- The lines of a document. `fuel` bounds their number. -/
def statements : (fuel : Nat) → Progress → List Char → Option Entries
  | 0, _, _ => none
  | fuel + 1, p, cs => do
    match ← skipTrivia false cs with
    | [] => return p.entries
    | cs => do
      -- nothing but a comment may follow on the line of a statement
      let (p, rest) ← statement p cs
      if atLineEnd rest then statements fuel p rest else none

/-- Characters without a byte-order mark at their start. -/
def dropMark : List Char → List Char
  | '\ufeff' :: cs => cs
  | cs => cs

/-- The entries of a document. -/
def parse (text : String) : Option Entries :=
  let cs := dropMark text.toList
  statements (cs.length + 1) {} cs

end SelfTypes.Toml
