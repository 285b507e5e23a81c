import SelfTypes.Text.Width

/-!
# Documents

Text with optional line breaks. A break belongs to the groups around it: a group is set on one
line when it fits there, its breaks then being spaces, and is broken otherwise. `Doc.render` sets
a document in a given width.
-/

namespace SelfTypes

/-- A text with places where a line may end. -/
inductive Doc where
  /-- Nothing. -/
  | empty
  /-- A text that is not broken. -/
  | text (s : String)
  /-- A space, or the end of a line. -/
  | line
  /-- One document after the other. -/
  | append (first second : Doc)
  /-- A document whose place is further right, or further left. -/
  | nest (amount : Int) (d : Doc)
  /-- A document set on one line if it fits. -/
  | group (d : Doc)
  deriving Inhabited

namespace Doc

instance : Append Doc := ⟨append⟩

/-- Documents one after the other. -/
def concat (ds : List Doc) : Doc :=
  ds.foldr append empty

/-- A document in round brackets. -/
def parens (d : Doc) : Doc :=
  text "(" ++ d ++ text ")"

/-- A document that starts a line of its own, indented, unless it fits on the current one. -/
def hang (indent : Int) (d : Doc) : Doc :=
  group (nest indent (line ++ d))

/-! ## What fits on a line -/

/-- Where a reader of a line stands after some part of it. -/
inductive Reach where
  /-- In the given column. -/
  | column (col : Nat)
  /-- Past the end of a line that kept within the width. -/
  | ended
  /-- Past the width. -/
  | overrun
  deriving DecidableEq

/-- The place after `cols` more columns. -/
def advance (width cols col : Nat) : Reach :=
  if col + cols ≤ width then .column (col + cols) else .overrun

/-- The place after a document that starts in column `col`, with its breaks taken for spaces
if `flat` and for line ends otherwise. -/
def reach (width : Nat) (flat : Bool) : Doc → (col : Nat) → Reach
  | empty, col => .column col
  | text s, col => advance width (Text.displayWidth s) col
  | line, col => if flat then advance width 1 col else .ended
  | append a b, col =>
    match reach width flat a col with
    | .column col => reach width flat b col
    | stop => stop
  | nest _ d, col => reach width flat d col
  | group d, col => reach width flat d col

/-- What follows on the page: documents, each with the indentation of its place. -/
abbrev Rest := List (Nat × Doc)

/-- Whether the current line can go on with the documents `rest`, all broken, from column `col`. -/
def restFits (width : Nat) : Rest → (col : Nat) → Bool
  | [], _ => true
  | (_, d) :: rest, col =>
    match reach width false d col with
    | .column col => restFits width rest col
    | .ended => true
    | .overrun => false

/-- Whether a document set flat in column `col`, with the documents `rest` after it, keeps within
the width up to the end of the line. -/
def fits (width : Nat) (d : Doc) (rest : Rest) (col : Nat) : Bool :=
  match reach width true d col with
  | .column col => restFits width rest col
  | .ended => true
  | .overrun => false

/-! ## Setting a document -/

/-- Text set so far and the column it ends in. -/
structure Galley where
  out : String := ""
  col : Nat := 0
  deriving Inhabited

/-- An indentation moved by a signed amount; it does not go below zero. -/
def shiftIndent (indent : Nat) (amount : Int) : Nat :=
  (indent + amount).toNat

/-- Whether nothing comes of a document. -/
def isEmpty : Doc → Bool
  | empty => true
  | text s => s.isEmpty
  | line => false
  | append a b => a.isEmpty && b.isEmpty
  | nest _ d => d.isEmpty
  | group d => d.isEmpty

/-- The start of a new line. A line is indented for what is set on it: at the indentation of the
first document of the rest that is not empty, and only at the end of the page at the indentation
of the line break itself. -/
def lineStart (indent : Nat) (rest : Rest) : Nat :=
  match rest.find? (fun next => !next.2.isEmpty) with
  | some next => next.1
  | none => indent

/-- Ends the line of a galley and starts one at the given indentation. -/
def Galley.newLine (g : Galley) (indent : Nat) : Galley :=
  ⟨g.out ++ "\n" ++ "".pushn ' ' indent, indent⟩

/-- Sets a document after the text in `g`. `indent` is its indentation, `flat` says whether breaks
are spaces, and `rest` is what follows the document on the page. -/
def set (width : Nat) : Doc → (indent : Nat) → (flat : Bool) → Rest → Galley → Galley
  | empty, _, _, _, g => g
  | text s, _, _, _, g => ⟨g.out ++ s, g.col + Text.displayWidth s⟩
  | line, indent, flat, rest, g =>
    if flat then ⟨g.out ++ " ", g.col + 1⟩ else g.newLine (lineStart indent rest)
  | append a b, indent, flat, rest, g =>
    -- whether a group in `a` fits depends on what follows it, `b` first
    set width b indent flat rest (set width a indent flat ((indent, b) :: rest) g)
  | nest amount d, indent, flat, rest, g => set width d (shiftIndent indent amount) flat rest g
  | group d, indent, flat, rest, g =>
    -- a group on a line that is set flat is flat too
    set width d indent (flat || fits width d rest g.col) rest g

/-- The text of a document in lines of at most `width` columns where its breaks allow it. -/
def render (width : Nat) (d : Doc) : String :=
  (set width d 0 false [] {}).out

end Doc

/-- How a document is laid out: the width of a line and the indentation of a hanging part. -/
structure Layout where
  width : Nat := Nat.pow 2 64 - 1
  indent : Int := 2
  deriving DecidableEq, Inhabited

end SelfTypes
