import SelfTypes.Proofs.Code.Scanning
import SelfTypes.Proofs.Layout.Printing

/-!
# The text of code is unambiguous

Code whose names are plain is known from its text, in whatever layout: joined to one line, the text
has the tokens of the script of the code, and the script tells the code up to the difference between
local and global names. Main statement: `text_eq_text_iff`.
-/

namespace SelfTypes

open Doc Script

/-! ## Plain names -/

/-- A letter, a digit, a dot or an underscore. Every character beyond ASCII counts as a letter. -/
def isNameChar (c : Char) : Bool :=
  c.isAlphanum || c = '.' || c = '_' || 0x80 ≤ c.toNat

/-- The beginnings of the names of native marks. -/
def markBeginnings : List String :=
  ["elim_", "inst_"]

/-- A name of letters, digits, dots and underscores that is no keyword and does not begin like a
mark. -/
structure IsPlainName (n : String) : Prop where
  ne_empty : n ≠ ""
  chars : ∀ c ∈ n.toList, isNameChar c = true
  notKeyword : n ≠ "null" ∧ n ≠ "let"
  notMark : ∀ m ∈ markBeginnings, ¬ m.toList <+: n.toList

instance (n : String) : Decidable (IsPlainName n) :=
  have : Decidable (∀ c ∈ n.toList, isNameChar c = true) := List.decidableBAll _ _
  decidable_of_iff (n ≠ "" ∧ (∀ c ∈ n.toList, isNameChar c = true) ∧ (n ≠ "null" ∧ n ≠ "let") ∧
      ∀ m ∈ markBeginnings, ¬ m.toList <+: n.toList)
    ⟨fun ⟨hne, hchars, hkeyword, hmark⟩ => ⟨hne, hchars, hkeyword, hmark⟩,
      fun h => ⟨h.ne_empty, h.chars, h.notKeyword, h.notMark⟩⟩

namespace IsPlainName

variable {n : String}

/-- A name character neither opens a literal nor separates words. -/
theorem isBareWord (hn : IsPlainName n) : IsBareWord n := by
  refine ⟨hn.ne_empty, fun c hc => ?_⟩
  have hchar := hn.chars c hc
  constructor
  -- neither kind of quote may occur in a name
  · cases hquote : isQuote c with
    | false => rfl
    | true =>
      rw [isQuote, Bool.or_eq_true, decide_eq_true_eq, decide_eq_true_eq] at hquote
      rcases hquote with rfl | rfl <;> cases hchar
  -- nor may a character that is a sign by itself
  · unfold sign?
    split
    case h_7 => rfl
    all_goals cases hchar

theorem isWord (hn : IsPlainName n) : IsWord n := by
  refine ⟨hn.ne_empty, fun c hc => ?_⟩
  have hchar := hn.chars c hc
  cases hspace : c.isWhitespace with
  | false => rfl
  | true =>
    simp only [Char.isWhitespace, Bool.or_eq_true, decide_eq_true_eq] at hspace
    rcases hspace with ((rfl | rfl) | rfl) | rfl <;> cases hchar

end IsPlainName

namespace Code

/-! ## The script of code -/

/-- The mark of an elimination. -/
def elimMark (p : Primitive) : String := "elim_" ++ p.keyword

/-- The mark of an introduction. -/
def instMark (p : Primitive) : String := "inst_" ++ p.keyword

/-- A word that marks an elimination or an introduction. -/
def IsMark (w : String) : Prop :=
  ∃ p, w = elimMark p ∨ w = instMark p

theorem isMark_elimMark (p : Primitive) : IsMark (elimMark p) := ⟨p, .inl rfl⟩

theorem isMark_instMark (p : Primitive) : IsMark (instMark p) := ⟨p, .inr rfl⟩

/-- How code looks on a page. -/
def script : Code → Script
  | var n | ref n => .word n
  | nul => .word "null"
  | lam n b => .lam n b.script
  | app f a => .app f.script a.script
  | letIn n e b => .letIn n e.script b.script
  | elim p v => .app (.word (elimMark p)) v.script
  | inst p f => .app (.word (instMark p)) f.script
  -- the quotes stay in the word, so that a character and a string of one letter are told apart
  | chr c => .word (literalWord '\'' [c])
  | str s => .word (literalWord '"' s.toList)

/-! ## Its text has the tokens of its script -/

theorem toList_oneLine_lam (n : BinderName) (b : Code) :
    (lam n b).oneLine.toList =
      '(' :: (n.toList ++ ')' :: ' ' :: '=' :: '>' :: ' ' :: b.oneLine.toList) := by
  simp [oneLine, doc, toString]

theorem toList_oneLine_app (f a : Code) :
    (app f a).oneLine.toList =
      (if f.isOpen then '(' :: (f.oneLine.toList ++ [')']) else f.oneLine.toList) ++
        '(' :: (a.oneLine.toList ++ [')']) := by
  simp only [oneLine, doc]
  split <;> simp

theorem toList_oneLine_letIn (n : BinderName) (e b : Code) :
    (letIn n e b).oneLine.toList =
      "let".toList ++ ' ' :: (n.toList ++ ' ' :: '=' :: ' ' :: (e.oneLine.toList ++
        ';' :: ' ' :: b.oneLine.toList)) := by
  simp [oneLine, doc, toString]

theorem toList_oneLine_elim (p : Primitive) (v : Code) :
    (elim p v).oneLine.toList = (elimMark p).toList ++ '(' :: (v.oneLine.toList ++ [')']) := by
  simp [oneLine, doc, elimMark, toString]

theorem toList_oneLine_inst (p : Primitive) (f : Code) :
    (inst p f).oneLine.toList = (instMark p).toList ++ '(' :: (f.oneLine.toList ++ [')']) := by
  simp [oneLine, doc, instMark, toString]

theorem toList_oneLine_chr (c : Char) : (chr c).oneLine.toList = (literalWord '\'' [c]).toList := by
  simp [oneLine, doc]

theorem toList_oneLine_str (s : String) :
    (str s).oneLine.toList = (literalWord '"' s.toList).toList := by
  simp [oneLine, doc, Text.escape]

theorem tokensOf_name {n : String} (hn : IsPlainName n) {cs : List Char} (hcs : EndsWord cs) :
    tokensOf (n.toList ++ cs) = .word n :: tokensOf cs := by
  rw [tokensOf_word hn.isBareWord hcs, wordToken, if_neg hn.notKeyword.2]

theorem IsMark.isBareWord {w : String} (hw : IsMark w) : IsBareWord w := by
  obtain ⟨p, rfl | rfl⟩ := hw <;> cases p <;> decide

theorem tokensOf_mark {w : String} (hw : IsMark w) {cs : List Char} (hcs : EndsWord cs) :
    tokensOf (w.toList ++ cs) = .word w :: tokensOf cs := by
  have hne : w ≠ "let" := by
    obtain ⟨p, rfl | rfl⟩ := hw <;> cases p <;> decide
  rw [tokensOf_word hw.isBareWord hcs, wordToken, if_neg hne]

theorem isOpen_script (c : Code) : c.script.isOpen = c.isOpen := by
  cases c <;> rfl

/-- The tokens of an argument in brackets. -/
theorem tokensOf_argument {a : List Char} {ts : List Token}
    (ha : ∀ {cs}, EndsWord cs → tokensOf (a ++ cs) = ts ++ tokensOf cs) (cs : List Char) :
    tokensOf ('(' :: (a ++ [')']) ++ cs) = .left :: (ts ++ [.right]) ++ tokensOf cs := by
  simp [ha (endsWord_right cs)]

theorem tokensOf_marked {w : String} (hw : IsMark w) {a : List Char} {ts : List Token}
    (ha : ∀ {cs}, EndsWord cs → tokensOf (a ++ cs) = ts ++ tokensOf cs) (cs : List Char) :
    tokensOf (w.toList ++ '(' :: (a ++ [')']) ++ cs) =
      .word w :: .left :: (ts ++ [.right]) ++ tokensOf cs := by
  have hends : EndsWord ('(' :: (a ++ [')']) ++ cs) := endsWord_left _
  rw [List.append_assoc, tokensOf_mark hw hends, tokensOf_argument ha]
  rfl

/-- In front of a sign or at the end, the text of code has the tokens of its script. -/
theorem tokensOf_oneLine {c : Code} (hc : ∀ n ∈ c.names, IsPlainName n) {cs : List Char}
    (hcs : EndsWord cs) : tokensOf (c.oneLine.toList ++ cs) = c.script.tokens ++ tokensOf cs := by
  -- the induction is over the code, with what follows general, as each part is followed by another
  induction c generalizing cs with
  | var n | ref n =>
    have htext := tokensOf_name (hc n List.mem_cons_self) hcs
    simpa [oneLine, doc, script, tokens] using htext
  | nul => exact tokensOf_word (w := "null") (by decide) hcs
  | lam n b ih =>
    rw [names, List.forall_mem_cons] at hc
    rw [toList_oneLine_lam]
    -- each sign and each word of the layout is scanned in turn, up to the body
    simp only [List.cons_append, List.append_assoc, tokensOf_left, tokensOf_right, tokensOf_space,
      tokensOf_equals, tokensOf_arrow, tokensOf_name hc.1 (endsWord_right _), ih hc.2 hcs]
    rfl
  | app f a ihf iha =>
    rw [names, List.forall_mem_append] at hc
    rw [toList_oneLine_app, script, tokens, isOpen_script, List.append_assoc, List.append_assoc,
      ← tokensOf_argument (iha hc.2)]
    -- a function with an open end stands in brackets when it is called
    split
    · simp [ihf hc.1 (endsWord_right _)]
    · exact ihf hc.1 (endsWord_left _)
  | letIn n e b ihe ihb =>
    simp only [names, List.forall_mem_cons, List.forall_mem_append] at hc
    obtain ⟨hn, he, hb⟩ := hc
    -- the keyword ends at the blank, so it is not scanned as part of a name
    have hlet : ∀ cs, tokensOf ("let".toList ++ ' ' :: cs) = .letWord :: tokensOf cs := fun cs =>
      tokensOf_word (w := "let") (by decide) (endsWord_space cs)
    rw [toList_oneLine_letIn]
    simp only [List.cons_append, List.append_assoc, hlet, tokensOf_space, tokensOf_equals,
      tokensOf_semicolon, tokensOf_name hn (endsWord_space _), ihe he (endsWord_semicolon _),
      ihb hb hcs]
    simp [script, tokens]
  | elim p v ih =>
    rw [toList_oneLine_elim]
    exact tokensOf_marked (isMark_elimMark p) (ih hc) cs
  | inst p f ih =>
    rw [toList_oneLine_inst]
    exact tokensOf_marked (isMark_instMark p) (ih hc) cs
  | chr c =>
    rw [toList_oneLine_chr]
    exact tokensOf_literalWord (by decide) [c] cs
  | str s =>
    rw [toList_oneLine_str]
    exact tokensOf_literalWord (by decide) s.toList cs

/-! ## The script tells the code -/

/-- Code with its global names taken for local ones. -/
def byName : Code → Code
  | var n | ref n => var n
  | nul => nul
  | lam n b => lam n b.byName
  | app f a => app f.byName a.byName
  | letIn n e b => letIn n e.byName b.byName
  | elim p v => elim p v.byName
  | inst p f => inst p f.byName
  | chr c => chr c
  | str s => str s

theorem isOpen_byName (c : Code) : c.byName.isOpen = c.isOpen := by
  cases c <;> rfl

/-- The kind of a name is not printed. -/
theorem doc_byName (c : Code) (indent : Int) : c.byName.doc indent = c.doc indent := by
  induction c with
  | var | ref | nul | chr | str => rfl
  | lam n b ih => simp only [byName, doc, ih]
  | app f a ihf iha => simp only [byName, doc, isOpen_byName, ihf, iha]
  | letIn n e b ihe ihb => simp only [byName, doc, ihe, ihb]
  | elim p v ih | inst p v ih => simp only [byName, doc, ih]

theorem elimMark_injective {p p' : Primitive} (h : elimMark p = elimMark p') : p = p' := by
  revert h
  cases p <;> cases p' <;> decide

theorem instMark_injective {p p' : Primitive} (h : instMark p = instMark p') : p = p' := by
  revert h
  cases p <;> cases p' <;> decide

theorem elimMark_ne_instMark (p p' : Primitive) : elimMark p ≠ instMark p' := by
  cases p <;> cases p' <;> decide

theorem isBareWord_null : IsBareWord "null" := by decide

theorem null_not_isMark : ¬ IsMark "null" := by
  rintro ⟨p, h | h⟩ <;> revert h <;> cases p <;> decide

/-- No plain name is a mark. -/
theorem IsMark.not_isPlainName {w : String} (hw : IsMark w) : ¬ IsPlainName w := by
  intro hplain
  obtain ⟨p, rfl | rfl⟩ := hw
  -- a plain name does not start like a mark
  · refine hplain.notMark "elim_" (by decide) ?_
    rw [elimMark, String.toList_append]
    exact List.prefix_append _ _
  · refine hplain.notMark "inst_" (by decide) ?_
    rw [instMark, String.toList_append]
    exact List.prefix_append _ _

variable {c c' : Code}

/-- Only a name is seen as a plain name. -/
theorem byName_of_script_name {n : String} (hn : IsPlainName n) (h : c.script = .word n) :
    c.byName = var n := by
  cases c with
  | var m | ref m => rw [byName, Script.word.inj h]
  | nul => exact absurd (Script.word.inj h).symm hn.notKeyword.1
  | chr | str => exact absurd (Script.word.inj h).symm (hn.isBareWord.ne_literalWord (by decide) _)
  | lam | app | letIn | elim | inst => cases h

theorem eq_nul_of_script (hc : ∀ n ∈ c.names, IsPlainName n) (h : c.script = .word "null") :
    c = nul := by
  cases c with
  | var m | ref m => exact absurd (Script.word.inj h) (hc m List.mem_cons_self).notKeyword.1
  | nul => rfl
  | chr | str =>
    exact absurd (Script.word.inj h).symm (isBareWord_null.ne_literalWord (by decide) _)
  | lam | app | letIn | elim | inst => cases h

/-- Only a literal is seen as a quoted text, and the quotes tell which. -/
theorem eq_literal_of_script (hc : ∀ n ∈ c.names, IsPlainName n) {q : Char} (hq : isQuote q = true)
    {s : List Char} (h : c.script = .word (literalWord q s)) :
    (∃ d, q = '\'' ∧ s = [d] ∧ c = chr d) ∨ q = '"' ∧ c = str (String.ofList s) := by
  -- a name has no quotes, and what is no word at all is none
  cases c with
  | var m | ref m =>
    exact absurd (Script.word.inj h) ((hc m List.mem_cons_self).isBareWord.ne_literalWord hq s)
  | nul => exact absurd (Script.word.inj h) (isBareWord_null.ne_literalWord hq s)
  | chr d =>
    obtain ⟨rfl, rfl⟩ := literalWord_inj (Script.word.inj h)
    exact .inl ⟨d, rfl, rfl, rfl⟩
  | str s' =>
    obtain ⟨rfl, rfl⟩ := literalWord_inj (Script.word.inj h)
    exact .inr ⟨rfl, by rw [String.ofList_toList]⟩
  | lam | app | letIn | elim | inst => cases h

/-- No code is seen as a mark. -/
theorem script_ne_mark (hc : ∀ n ∈ c.names, IsPlainName n) {w : String} (hw : IsMark w) :
    c.script ≠ .word w := by
  intro h
  cases c with
  | var m | ref m => exact hw.not_isPlainName (Script.word.inj h ▸ hc m List.mem_cons_self)
  | nul => exact null_not_isMark (Script.word.inj h ▸ hw)
  | chr | str =>
    exact absurd (Script.word.inj h).symm (hw.isBareWord.ne_literalWord (by decide) _)
  | lam | app | letIn | elim | inst => cases h

/-- Code is known from its script, up to the kinds of its names. -/
theorem byName_of_script (hc : ∀ n ∈ c.names, IsPlainName n) (hc' : ∀ n ∈ c'.names, IsPlainName n)
    (h : c.script = c'.script) : c.byName = c'.byName := by
  -- the shape of a script is the shape of its code, except that a mark looks like a call
  induction c generalizing c' with
  | var n | ref n => exact (byName_of_script_name (hc n List.mem_cons_self) h.symm).symm
  -- `null` is no plain name, so no variable is written like the empty value
  | nul => rw [eq_nul_of_script hc' h.symm]
  | chr d =>
    -- the quotes tell a character from a string, and the escapes give back the letters
    rcases eq_literal_of_script hc' (by decide) h.symm with ⟨d', -, hd, rfl⟩ | ⟨hquote, -⟩
    · cases hd
      rfl
    · cases hquote
  | str s =>
    rcases eq_literal_of_script hc' (by decide) h.symm with ⟨d', hquote, -⟩ | ⟨-, rfl⟩
    · cases hquote
    · rw [String.ofList_toList]
  | lam n b ih =>
    cases c' with
    | lam n' b' =>
      obtain ⟨rfl, hb⟩ := Script.lam.inj h
      rw [names, List.forall_mem_cons] at hc hc'
      rw [byName, byName, ih hc.2 hc'.2 hb]
    | var | ref | nul | app | letIn | elim | inst | chr | str => cases h
  | letIn n e b ihe ihb =>
    cases c' with
    | letIn n' e' b' =>
      obtain ⟨rfl, he, hb⟩ := Script.letIn.inj h
      simp only [names, List.forall_mem_cons, List.forall_mem_append] at hc hc'
      rw [byName, byName, ihe hc.2.1 hc'.2.1 he, ihb hc.2.2 hc'.2.2 hb]
    | var | ref | nul | lam | app | elim | inst | chr | str => cases h
  | app f a ihf iha =>
    rw [names, List.forall_mem_append] at hc
    cases c' with
    | app f' a' =>
      obtain ⟨hf, ha⟩ := Script.app.inj h
      rw [names, List.forall_mem_append] at hc'
      rw [byName, byName, ihf hc.1 hc'.1 hf, iha hc.2 hc'.2 ha]
    -- a call of a name is not taken for a marked value, as no plain name is a mark
    | elim p v => exact absurd (Script.app.inj h).1 (script_ne_mark hc.1 (isMark_elimMark p))
    | inst p g => exact absurd (Script.app.inj h).1 (script_ne_mark hc.1 (isMark_instMark p))
    | var | ref | nul | lam | letIn | chr | str => cases h
  | elim p v ih =>
    cases c' with
    | app f' a' =>
      rw [names, List.forall_mem_append] at hc'
      exact absurd (Script.app.inj h).1.symm (script_ne_mark hc'.1 (isMark_elimMark p))
    | elim p' v' =>
      obtain ⟨hmark, hv⟩ := Script.app.inj h
      rw [names] at hc hc'
      rw [byName, byName, elimMark_injective (Script.word.inj hmark), ih hc hc' hv]
    -- nor is one mark taken for the other
    | inst p' f' => exact absurd (Script.word.inj (Script.app.inj h).1) (elimMark_ne_instMark p p')
    | var | ref | nul | lam | letIn | chr | str => cases h
  | inst p f ih =>
    cases c' with
    | app f' a' =>
      rw [names, List.forall_mem_append] at hc'
      exact absurd (Script.app.inj h).1.symm (script_ne_mark hc'.1 (isMark_instMark p))
    | elim p' v' =>
      exact absurd (Script.word.inj (Script.app.inj h).1).symm (elimMark_ne_instMark p' p)
    | inst p' f' =>
      obtain ⟨hmark, hf⟩ := Script.app.inj h
      rw [names] at hc hc'
      rw [byName, byName, instMark_injective (Script.word.inj hmark), ih hc hc' hf]
    | var | ref | nul | lam | letIn | chr | str => cases h

/-! ## Reading a text -/

/-- The tokens of the lines of a text, joined to one, are those of the script of the code. -/
theorem tokensOf_print (hc : ∀ n ∈ c.names, IsPlainName n) (layout : Layout) :
    tokensOf (joinLines (c.print layout)).toList = c.script.tokens := by
  have htext : tokensOf (c.oneLine.toList ++ []) = c.script.tokens ++ [] :=
    tokensOf_oneLine hc trivial
  rw [List.append_nil, List.append_nil] at htext
  rw [joinLines_print (fun n hn => (hc n hn).isWord), htext]

/-- Code with plain names is known from its text, in whatever layouts, up to the kinds of its
names. -/
theorem byName_of_print (hc : ∀ n ∈ c.names, IsPlainName n) (hc' : ∀ n ∈ c'.names, IsPlainName n)
    {layout layout' : Layout} (h : c.print layout = c'.print layout') : c.byName = c'.byName := by
  refine byName_of_script hc hc' (tokens_injective ?_)
  rw [← tokensOf_print hc layout, h, tokensOf_print hc' layout']

/-- The text of code is unambiguous: two codes with plain names have the same text just if they are
the same, global names taken for local ones. -/
theorem text_eq_text_iff (hc : ∀ n ∈ c.names, IsPlainName n) (hc' : ∀ n ∈ c'.names, IsPlainName n) :
    c.text = c'.text ↔ c.byName = c'.byName := by
  refine ⟨byName_of_print hc hc', fun h => ?_⟩
  rw [text, text, print, print, ← doc_byName c, h, doc_byName c']

/-- `((f) => let y = elim_bits(f)('"'); y)("null")`, with `f` as the name of its argument or of a
definition. -/
def calledDefinition (f : String → Code) : Code :=
  .app (.lam "f" (.letIn "y" (.app (.elim .bits (f "f")) (.chr '"')) (.var "y"))) (.str "null")

/-- The two have one text, and are one with global names taken for local ones. -/
theorem calledDefinition_text :
    (calledDefinition .var).text = "((f) => let y = elim_bits(f)('\\\"'); y)(\"null\")" ∧
    (calledDefinition .ref).text = (calledDefinition .var).text ∧
    (calledDefinition .ref).byName = (calledDefinition .var).byName ∧
    calledDefinition .ref ≠ calledDefinition .var := by
  have htext : (calledDefinition .ref).text = (calledDefinition .var).text := by decide +kernel
  exact ⟨by decide +kernel, htext, (text_eq_text_iff (by decide) (by decide)).1 htext, by decide⟩

end Code

end SelfTypes
