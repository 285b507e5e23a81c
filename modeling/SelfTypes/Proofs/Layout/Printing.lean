import SelfTypes.Code.Printer
import SelfTypes.Proofs.Layout.Phrase
import SelfTypes.Proofs.Layout.Width
import SelfTypes.Proofs.Text.Escape
import SelfTypes.Term.Printer

/-!
# Layouts of terms and of code

The documents of terms and of code are phrases, if the names in them are words, and their breaks
belong to groups. So the layout decides about white space only. Main statement:
`layout_changes_white_space_only`.
-/

namespace SelfTypes

open Doc

/-! ## Terms -/

namespace Term

/-- The names in a term, those of self types that do not show included. -/
def names : Term → List String
  | bound _ | typ => []
  | var x => [x.name]
  | ref n => [n]
  | all s n a b => s :: n :: (a.names ++ b.names)
  | lam n _ b => n :: b.names
  | app f a _ => f.names ++ a.names
  | letIn n _ e b => n :: (e.names ++ b.names)
  | ann _ e t => e.names ++ t.names
  | loc _ e => e.names

/-- The text of a term on one line. -/
def oneLine (t : Term) : String :=
  (t.doc 0 []).flat

variable {t : Term} {above : List BinderName}

theorem isPhrase_doc (ht : ∀ n ∈ t.names, IsWord n) (habove : ∀ n ∈ above, IsWord n)
    (indent : Int) : IsPhrase (t.doc indent above) := by
  -- the names around the term grow below binders, so the induction is general in them
  induction t generalizing above with
  | bound i =>
    rw [doc, indexText]
    -- an index without a binder is shown by its number
    cases hi : above[i]? with
    | none => exact (isPhrase_word (s := "^") (by decide)).text_append (keepsLine_toString i)
    | some n => exact isPhrase_word (habove n (List.mem_of_getElem? hi))
  | var x =>
    have hx : IsWord x.name := ht x.name List.mem_cons_self
    exact ((isPhrase_word hx).text_append (by decide)).text_append (keepsLine_toString x.id.index)
  | ref n => exact isPhrase_word (ht n List.mem_cons_self)
  | typ => exact isPhrase_word (by decide)
  | all s n a b iha ihb =>
    simp only [names, List.forall_mem_cons, List.forall_mem_append] at ht
    obtain ⟨hs, hn, ha, hb⟩ := ht
    have ha' := iha ha habove
    have hb' := ihb hb (List.forall_mem_cons.2 ⟨hn, List.forall_mem_cons.2 ⟨hs, habove⟩⟩)
    -- the parameter and the arrow, which stand in either form of a self type
    have hopen : IsPhrase (.text s!"({n}: ") :=
      isPhrase_around (by decide) (by decide) hn (by decide)
    have harrow : IsSpaced (concat [doc indent above a, .text ")", .text " ", .text "->",
        .hang indent (doc indent (n :: s :: above) b)]).glyphs :=
      ha'.spaced.append ((isSpaced_text (by decide)).append ((isSpaced_text (by decide)).append
        ((isSpaced_text (by decide)).append ((hb'.hang indent).append trivial))))
    have hpi := hopen.append harrow
    rw [doc]
    -- the name of the self variable is left out where it is empty
    split
    · exact ⟨hpi.starts, hpi.spaced⟩
    · have hself : IsPhrase (.text s!"%{s}") :=
        (isPhrase_word (s := "%") (by decide)).text_append hs.keepsLine
      have hall := hself.append hpi.spaced
      exact ⟨hall.starts, hall.spaced⟩
  | lam n er b ih =>
    rw [names, List.forall_mem_cons] at ht
    have hb := ih ht.2 (List.forall_mem_cons.2 ⟨ht.1, habove⟩)
    refine isPhrase_function indent ?_ hb
    cases er <;> exact isPhrase_around (by decide) (by decide) ht.1 (by decide)
  | app f a er ihf iha =>
    rw [names, List.forall_mem_append] at ht
    have hf := ihf ht.1 habove
    have ha := iha ht.2 habove
    -- a function that is not atomic stands in brackets
    have hfunc : IsPhrase
        (if f.isAtomic then f.doc indent above else .parens (f.doc indent above)) := by
      split
      · exact hf
      · exact hf.parens
    cases er <;> exact isPhrase_call hfunc (by decide) ha (by decide)
  | letIn n d e b ihe ihb =>
    simp only [names, List.forall_mem_cons, List.forall_mem_append] at ht
    obtain ⟨hn, he, hb⟩ := ht
    refine isPhrase_definition indent ?_ (ihe he habove)
      (ihb hb (List.forall_mem_cons.2 ⟨hn, habove⟩))
    cases d <;> exact isPhrase_around (by decide) (by decide) hn (by decide)
  | ann d e t ihe iht =>
    rw [names, List.forall_mem_append] at ht
    have htype : IsSpaced (concat [.text " ", .text "::", .text " ", t.doc indent above,
        .text ")"]).glyphs :=
      (isSpaced_text (by decide)).append ((isSpaced_text (by decide)).append
        ((isSpaced_text (by decide)).append ((iht ht.2 habove).spaced.append
          ((isSpaced_text (by decide)).append trivial))))
    exact (isPhrase_word (by decide)).append ((ihe ht.1 habove).spaced.append htype)
  | loc _ e ih => exact ih ht habove

theorem isGrouped_doc (t : Term) (indent : Int) (above : List BinderName) :
    (t.doc indent above).IsGrouped := by
  -- only calls and annotations stand outside a group of their own
  induction t generalizing above with
  | bound | var | ref | typ | all | lam | letIn => trivial
  | app f a er ihf iha =>
    refine ⟨?_, trivial, iha above, trivial, trivial⟩
    split
    · exact ihf above
    · exact ⟨⟨trivial, ihf above⟩, trivial⟩
  | ann d e t ihe iht =>
    exact ⟨trivial, ihe above, trivial, trivial, trivial, iht above, trivial, trivial⟩
  | loc _ e ih => exact ih above

/-- The indentation of hanging parts does not show on one line. -/
theorem flat_doc (t : Term) (indent : Int) (above : List BinderName) :
    (t.doc indent above).flat = (t.doc 0 above).flat := by
  -- the indentation is used by breaks only, and a flat document has none
  induction t generalizing above with
  | bound | var | ref | typ => rfl
  | all s n a b iha ihb =>
    simp only [doc, flat_group, flat_concat_cons, flat_hang, flat_text, iha above,
      ihb (n :: s :: above)]
  | lam n er b ih =>
    simp only [doc, flat_group, flat_concat_cons, flat_hang, flat_text, ih (n :: above)]
  | app f a er ihf iha =>
    simp only [doc, flat_concat_cons, flat_text, iha above, apply_ite Doc.flat, flat_parens,
      ihf above]
  | letIn n d e b ihe ihb =>
    simp only [doc, flat_group, flat_concat_cons, flat_hang, flat_text, ihe above, ihb (n :: above)]
  | ann d e t ihe iht => simp only [doc, flat_concat_cons, flat_text, ihe above, iht above]
  | loc _ e ih => exact ih above

theorem joinLines_print (ht : ∀ n ∈ t.names, IsWord n) (layout : Layout) :
    joinLines (t.print layout) = t.oneLine := by
  have hphrase : IsPhrase (t.doc layout.indent []) :=
    isPhrase_doc ht (fun _ h => by cases h) layout.indent
  rw [print, joinLines_render hphrase.spaced, flat_doc, oneLine]

end Term

/-! ## Code -/

namespace Code

/-- The names in code. -/
def names : Code → List String
  | var n | ref n => [n]
  | nul | chr _ | str _ => []
  | lam n b => n :: b.names
  | app f a => f.names ++ a.names
  | letIn n e b => n :: (e.names ++ b.names)
  | elim _ v => v.names
  | inst _ f => f.names

/-- The text of code on one line. -/
def oneLine (c : Code) : String :=
  (c.doc 0).flat

theorem isWord_keyword (p : Primitive) : IsWord p.keyword := by
  cases p <;> decide

/-- An escaped text ends no line. -/
theorem keepsLine_escape (cs : List Char) :
    KeepsLine (String.ofList (cs.flatMap Text.escapeChar)) := by
  intro c hc
  rw [String.toList_ofList, List.mem_flatMap] at hc
  obtain ⟨d, -, hmem⟩ := hc
  have hprintable := (Text.spelling_escapeChar d).printable hmem
  constructor <;> rintro rfl <;> revert hprintable <;> decide

theorem isPhrase_doc {c : Code} (hc : ∀ n ∈ c.names, IsWord n) (indent : Int) :
    IsPhrase (c.doc indent) := by
  induction c with
  | var n | ref n => exact isPhrase_word (hc n List.mem_cons_self)
  | nul => exact isPhrase_word (by decide)
  | lam n b ih =>
    rw [names, List.forall_mem_cons] at hc
    exact isPhrase_function indent (isPhrase_around (by decide) (by decide) hc.1 (by decide))
      (ih hc.2)
  | app f a ihf iha =>
    rw [names, List.forall_mem_append] at hc
    have hf := ihf hc.1
    have hfunc : IsPhrase (if f.isOpen then .parens (f.doc indent) else f.doc indent) := by
      split
      · exact hf.parens
      · exact hf
    exact isPhrase_call hfunc (by decide) (iha hc.2) (by decide)
  | letIn n e b ihe ihb =>
    simp only [names, List.forall_mem_cons, List.forall_mem_append] at hc
    obtain ⟨hn, he, hb⟩ := hc
    exact isPhrase_definition indent (isPhrase_around (by decide) (by decide) hn (by decide))
      (ihe he)
      (ihb hb)
  | elim p v ih =>
    exact (isPhrase_around (by decide) (by decide) (isWord_keyword p) (by decide)).append
      ((ih hc).spaced.append ((isSpaced_text (by decide)).append trivial))
  | inst p f ih =>
    exact (isPhrase_around (by decide) (by decide) (isWord_keyword p) (by decide)).append
      ((ih hc).spaced.append ((isSpaced_text (by decide)).append trivial))
  | chr c =>
    -- the quotes are no white space, and what is escaped between them does not break the line
    have hescape := keepsLine_escape [c]
    rw [List.flatMap_singleton] at hescape
    exact ((isPhrase_text (by decide) (by decide)).text_append hescape).text_append (by decide)
  | str s =>
    exact ((isPhrase_text (by decide) (by decide)).text_append
      (keepsLine_escape s.toList)).text_append
      (by decide)

theorem isGrouped_doc (c : Code) (indent : Int) : (c.doc indent).IsGrouped := by
  induction c with
  | var | ref | nul | lam | letIn | chr | str => trivial
  | app f a ihf iha =>
    refine ⟨?_, trivial, iha, trivial, trivial⟩
    split
    · exact ⟨⟨trivial, ihf⟩, trivial⟩
    · exact ihf
  | elim _ _ ih | inst _ _ ih => exact ⟨trivial, ih, trivial, trivial⟩

theorem flat_doc (c : Code) (indent : Int) : (c.doc indent).flat = c.oneLine := by
  rw [oneLine]
  induction c with
  | var | ref | nul | chr | str => rfl
  | lam n b ih => simp only [doc, flat_group, flat_concat_cons, flat_hang, flat_text, ih]
  | app f a ihf iha =>
    simp only [doc, flat_concat_cons, flat_text, iha, apply_ite Doc.flat, flat_parens, ihf]
  | letIn n e b ihe ihb =>
    simp only [doc, flat_group, flat_concat_cons, flat_hang, flat_text, ihe, ihb]
  | elim _ _ ih | inst _ _ ih => simp only [doc, flat_concat_cons, flat_text, ih]

theorem joinLines_print {c : Code} (hc : ∀ n ∈ c.names, IsWord n) (layout : Layout) :
    joinLines (c.print layout) = c.oneLine := by
  rw [print, joinLines_render (isPhrase_doc hc layout.indent).spaced, flat_doc]

end Code

/-! ## What a layout changes -/

/-- The layout of a text decides about white space only. In whatever width and with whatever
indentation a term or code is printed, its lines joined to one, with a space for each line end and
the indentation after it, are the text on one line; and in the default width the text is printed on
one line, if its columns can be counted by a word. The names are words. -/
theorem layout_changes_white_space_only :
    (∀ t : Term, (∀ n ∈ t.names, IsWord n) →
      (∀ layout : Layout, joinLines (t.print layout) = t.oneLine) ∧
      (Text.displayWidth t.oneLine < Nat.pow 2 64 →
        ∀ indent : Int, t.print { indent } = t.oneLine)) ∧
    ∀ c : Code, (∀ n ∈ c.names, IsWord n) →
      (∀ layout : Layout, joinLines (c.print layout) = c.oneLine) ∧
      (Text.displayWidth c.oneLine < Nat.pow 2 64 →
        ∀ indent : Int, c.print { indent } = c.oneLine) := by
  refine ⟨fun t ht => ⟨Term.joinLines_print ht, fun hwidth indent => ?_⟩,
    fun c hc => ⟨Code.joinLines_print hc, fun hwidth indent => ?_⟩⟩
  -- both halves by the same two facts about the document: how it is spaced, and that breaks come in
  -- groups
  · have hphrase : IsPhrase (t.doc indent []) := Term.isPhrase_doc ht (fun _ h => by cases h) indent
    rw [Term.oneLine, ← Term.flat_doc t indent] at hwidth ⊢
    exact render_of_displayWidth_le hphrase.spaced (t.isGrouped_doc indent [])
      (Nat.le_pred_of_lt hwidth)
  · rw [← Code.flat_doc c indent] at hwidth ⊢
    exact render_of_displayWidth_le (Code.isPhrase_doc hc indent).spaced (c.isGrouped_doc indent)
      (Nat.le_pred_of_lt hwidth)

/-- `%s(A: Type) -> let y = A; f<s>` -/
def crowdedTerm : Term :=
  .all "s" "A" .typ (.letIn "y" false (.bound 0) (.app (.ref "f") (.bound 2) true))

/-- `(x) => elim_bits(x)('\'')` -/
def crowdedCode : Code :=
  .lam "x" (.app (.elim .bits (.var "x")) (.chr '\''))

/-- A narrow layout and the default one. -/
theorem crowded_layouts :
    crowdedTerm.print ⟨8, 3⟩ = "%s(A: Type) ->\n   let y =\n      A;\n   f<s>" ∧
    joinLines (crowdedTerm.print ⟨8, 3⟩) = crowdedTerm.oneLine ∧
    crowdedTerm.print { indent := -1 } = crowdedTerm.oneLine ∧
    crowdedCode.print ⟨8, -1⟩ = "(x) =>\nelim_bits(x)('\\'')" ∧
    joinLines (crowdedCode.print ⟨8, -1⟩) = crowdedCode.oneLine ∧
    crowdedCode.print { indent := 4 } = crowdedCode.oneLine := by
  obtain ⟨hterm, hcode⟩ := layout_changes_white_space_only
  obtain ⟨hjoin, hdefault⟩ := hterm crowdedTerm (by decide)
  obtain ⟨hjoin', hdefault'⟩ := hcode crowdedCode (by decide)
  exact ⟨by decide +kernel, hjoin ⟨8, 3⟩, hdefault (by decide) (-1), by decide +kernel,
    hjoin' ⟨8, -1⟩, hdefault' (by decide) 4⟩

end SelfTypes
