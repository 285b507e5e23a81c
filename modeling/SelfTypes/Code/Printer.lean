import SelfTypes.Code.Basic
import SelfTypes.Layout.Doc
import SelfTypes.Text.Escape

/-!
# Printing code

Code is printed like a script: functions are arrows, native marks are calls, literals are quoted.
-/

namespace SelfTypes.Code

/-- Whether code needs brackets in function position. -/
def isOpen : Code → Bool
  | lam .. | letIn .. => true
  | _ => false

/-- The document of code. -/
def doc (indent : Int) : Code → Doc
  | var n => .text n
  | ref n => .text n
  | nul => .text "null"
  | lam n b =>
    .group (.concat [.text s!"({n})", .text " ", .text "=>", .hang indent (doc indent b)])
  | app f a =>
    let func := doc indent f
    .concat [if f.isOpen then .parens func else func, .text "(", doc indent a, .text ")"]
  | letIn n e b =>
    .group (.concat [.text s!"let {n} =", .hang indent (doc indent e), .text ";", .line,
      doc indent b])
  | elim p v => .concat [.text s!"elim_{p.keyword}(", doc indent v, .text ")"]
  | inst p f => .concat [.text s!"inst_{p.keyword}(", doc indent f, .text ")"]
  | chr c => .text ("'" ++ String.ofList (Text.escapeChar c) ++ "'")
  | str s => .text ("\"" ++ Text.escape s ++ "\"")

/-- The text of code in the given layout. -/
def print (layout : Layout) (c : Code) : String :=
  (c.doc layout.indent).render layout.width

/-- The text of code in the default layout, which keeps it on one line. -/
def text (c : Code) : String :=
  c.print {}

end SelfTypes.Code
