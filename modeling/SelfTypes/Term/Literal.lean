import SelfTypes.Term.Location

/-!
# Literals

Characters and strings are written as ordinary applications of global constructors. A character
of at most sixteen bits is `U16.new` of a word; a word lists its bits, the lowest one outermost,
with `Word.0` and `Word.1` and ends in `Word.nil`. A string is a `String.cons` list of characters
that ends in `String.nil`. Only unerased applications count, and locations may stand anywhere.
-/

namespace SelfTypes.Term

/-- The number of bits of an encoded character. -/
def charBits : Nat := 16

/-! ## Encoding -/

/-- The word of the lowest `bits` bits of a number. -/
def encodeWord : (bits : Nat) → Nat → Term
  | 0, _ => ref "Word.nil"
  | bits + 1, code =>
    app (ref (if code % 2 = 0 then "Word.0" else "Word.1")) (encodeWord bits (code / 2)) false

/-- The term of a character; one that needs more than sixteen bits has none. -/
def encodeChar? (c : Char) : Option Term :=
  if c.toNat < Nat.pow 2 charBits then
    some (app (ref "U16.new") (encodeWord charBits c.toNat) false)
  else none

/-- The term of a list of characters, if each of them has one. -/
def encodeChars? : List Char → Option Term
  | [] => some (ref "String.nil")
  | c :: cs => do
    let head ← encodeChar? c
    let tail ← encodeChars? cs
    return apps (ref "String.cons") [(head, false), (tail, false)]

/-- The term of a string, if each of its characters has one. -/
def encodeString? (s : String) : Option Term :=
  encodeChars? s.toList

/-! ## Decoding -/

/-- Whether a term is the given global, up to locations. -/
def isRef (name : DefName) (t : Term) : Bool :=
  match t.peel with
  | ref n => n == name
  | _ => false

/-- The argument of an unerased application of the given global. -/
def argumentOf? (name : DefName) (t : Term) : Option Term :=
  match t.peel with
  | app f a false => if f.isRef name then some a else none
  | _ => none

/-- The number written by a word of exactly `bits` bits. -/
def decodeWord? : (bits : Nat) → Term → Option Nat
  | 0, t => if t.isRef "Word.nil" then some 0 else none
  | bits + 1, t =>
    match t.argumentOf? "Word.0" with
    | some rest => (2 * ·) <$> decodeWord? bits rest
    | none => do
      let rest ← t.argumentOf? "Word.1"
      (2 * · + 1) <$> decodeWord? bits rest

/-- The character written by a term; surrogates are not characters. -/
def decodeChar? (t : Term) : Option Char := do
  let word ← t.argumentOf? "U16.new"
  let code ← decodeWord? charBits word
  if code.isValidChar then some (Char.ofNat code) else none

/-- The characters of the string written by a term. -/
def decodeChars? : Term → Option (List Char)
  | loc _ t => decodeChars? t
  | ref n => if n = "String.nil" then some [] else none
  | app f rest false => do
    let c ← decodeChar? (← f.argumentOf? "String.cons")
    let cs ← decodeChars? rest
    return c :: cs
  | _ => none

/-- The string written by a term. -/
def decodeString? (t : Term) : Option String :=
  String.ofList <$> decodeChars? t

end SelfTypes.Term
