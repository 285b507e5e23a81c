import SelfTypes.Layout.Doc
import SelfTypes.Term.Index

/-!
# Printing terms

A bound variable is shown by the name of its binder, a free one by its name and index, and an
index without a binder by `^` and its number. Locations do not show.

The binder of an index is found by counting binders up to and including it. The count is a word
like the index, so a term that holds the largest index has no text: `Term.print?` says which
terms have one.
-/

namespace SelfTypes.Term

/-- Whether a term can stand in function position without brackets. -/
def isAtomic : Term → Bool
  | all .. | lam .. | letIn .. => false
  | loc _ e => e.isAtomic
  | _ => true

/-- How an index is shown below binders of the given names, innermost first. -/
def indexText (names : List BinderName) (i : Nat) : String :=
  match names[i]? with
  | some n => n
  | none => s!"^{i}"

/-- The document of a term below binders of the given names, innermost first. -/
def doc (indent : Int) (names : List BinderName) : Term → Doc
  | bound i => .text (indexText names i)
  | var x => .text x.text
  | ref n => .text n
  | typ => .text "Type"
  | all s n a b =>
    let head := if s = "_" then .empty else .text s!"%{s}"
    .group (.concat [head, .text s!"({n}: ", doc indent names a, .text ")", .text " ", .text "->",
      .hang indent (doc indent (n :: s :: names) b)])
  | lam n er b =>
    .group (.concat [.text (if er then s!"<{n}>" else s!"({n})"), .text " ", .text "=>",
      .hang indent (doc indent (n :: names) b)])
  | app f a er =>
    let func := doc indent names f
    .concat [if f.isAtomic then func else .parens func, .text (if er then "<" else "("),
      doc indent names a, .text (if er then ">" else ")")]
  | letIn n d e b =>
    .group (.concat [.text (if d then s!"dup {n} =" else s!"let {n} ="),
      .hang indent (doc indent names e), .text ";", .line, doc indent (n :: names) b])
  | ann _ e t =>
    .concat [.text "(", doc indent names e, .text " ", .text "::", .text " ", doc indent names t,
      .text ")"]
  | loc _ e => doc indent names e

/-- The text of a term in the given layout. -/
def print (layout : Layout) (t : Term) : String :=
  (t.doc layout.indent []).render layout.width

/-- The text of a term in the default layout, which keeps it on one line. -/
def text (t : Term) : String :=
  t.print {}

/-- Whether a term has a text: every index of it has a successor in range. -/
def isPrintable (t : Term) : Bool :=
  t.indexBound < indexCount

/-- The text of a term in the given layout, if it has one. -/
def print? (layout : Layout) (t : Term) : Option String :=
  if t.isPrintable then some (t.print layout) else none

end SelfTypes.Term
