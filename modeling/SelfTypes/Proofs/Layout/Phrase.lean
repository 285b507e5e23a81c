import SelfTypes.Proofs.Layout.Spacing

/-!
# Phrases

A phrase is a document that starts with a word and has words behind its breaks. The documents of
functions, calls and local definitions are phrases if their parts are.
-/

namespace SelfTypes

/-- A name that is not empty and has no white space in it. -/
def IsWord (name : String) : Prop :=
  name ≠ "" ∧ ∀ c ∈ name.toList, c.isWhitespace = false

instance (name : String) : Decidable (IsWord name) :=
  have : Decidable (∀ c ∈ name.toList, c.isWhitespace = false) := List.decidableBAll _ _
  inferInstanceAs (Decidable (_ ∧ _))

/-! ## Texts on one line -/

/-- No character of the text ends a line. -/
def KeepsLine (s : String) : Prop :=
  ∀ c ∈ s.toList, c ≠ '\n' ∧ c ≠ '\r'

instance (s : String) : Decidable (KeepsLine s) :=
  List.decidableBAll _ _

theorem KeepsLine.append {s s' : String} (h : KeepsLine s) (h' : KeepsLine s') :
    KeepsLine (s ++ s') := by
  intro c hc
  rw [String.toList_append, List.mem_append] at hc
  exact hc.elim (h c) (h' c)

theorem IsWord.keepsLine {name : String} (h : IsWord name) : KeepsLine name := by
  intro c hc
  have hc' := h.2 c hc
  constructor <;> rintro rfl <;> cases hc'

theorem keepsLine_toString (n : Nat) : KeepsLine (toString n) := by
  intro c hc
  rw [Nat.toString_eq_ofList_toDigits, String.toList_ofList] at hc
  have hdigit := Nat.isDigit_of_mem_toDigits (by decide) (Nat.le_refl 10) hc
  constructor <;> rintro rfl <;> cases hdigit

namespace Doc

/-! ## Phrases -/

/-- A document that starts with a word and has words behind its breaks. -/
structure IsPhrase (d : Doc) : Prop where
  starts : StartsWord d.glyphs
  spaced : IsSpaced d.glyphs

theorem isSpaced_text {s : String} (h : KeepsLine s) : IsSpaced (text s).glyphs := by
  -- over the characters, as the text is a packed list of them
  have hall : ∀ cs : List Char, (∀ c ∈ cs, c ≠ '\n' ∧ c ≠ '\r') → IsSpaced (cs.map some) := by
    intro cs hcs
    induction cs with
    | nil => trivial
    | cons c cs ih =>
      rw [List.forall_mem_cons] at hcs
      exact ⟨hcs.1, ih hcs.2⟩
  exact hall s.toList h

theorem isPhrase_word {s : String} (h : IsWord s) : IsPhrase (text s) := by
  refine ⟨?_, isSpaced_text h.keepsLine⟩
  have hne : s.toList ≠ [] := fun hnil => h.1 (String.toList_eq_nil_iff.1 hnil)
  have hall := h.2
  rw [glyphs]
  generalize s.toList = cs at hne hall ⊢
  -- a word is not empty, and its first character is none of the white space that a break may become
  cases cs with
  | nil => exact absurd rfl hne
  | cons c cs => exact hall c List.mem_cons_self

/-- A fixed text is a phrase if it starts with a word. -/
theorem isPhrase_text {s : String} (hstarts : StartsWord (text s).glyphs) (h : KeepsLine s) :
    IsPhrase (text s) :=
  ⟨hstarts, isSpaced_text h⟩

theorem IsPhrase.append {a b : Doc} (ha : IsPhrase a) (hb : IsSpaced b.glyphs) :
    IsPhrase (append a b) :=
  ⟨ha.starts.append b.glyphs, ha.spaced.append hb⟩

theorem IsPhrase.text_append {s s' : String} (h : IsPhrase (text s)) (h' : KeepsLine s') :
    IsPhrase (text (s ++ s')) := by
  have hglyphs : (text (s ++ s')).glyphs = ((text s).append (text s')).glyphs := by
    simp only [glyphs, String.toList_append, List.map_append]
  have hphrase := h.append (isSpaced_text h')
  exact ⟨hglyphs ▸ hphrase.starts, hglyphs ▸ hphrase.spaced⟩

/-- A name with fixed texts around it. -/
theorem isPhrase_around {before name after : String} (hstarts : StartsWord (text before).glyphs)
    (hbefore : KeepsLine before) (hname : IsWord name) (hafter : KeepsLine after) :
    IsPhrase (text (before ++ name ++ after)) :=
  ((isPhrase_text hstarts hbefore).text_append hname.keepsLine).text_append hafter

section

variable {a b f : Doc}

theorem IsPhrase.parens (ha : IsPhrase a) : IsPhrase a.parens :=
  ((isPhrase_text (by decide) (by decide)).append ha.spaced).append (isSpaced_text (by decide))

/-- A break with a phrase behind it. -/
theorem IsPhrase.hang (ha : IsPhrase a) (indent : Int) : IsSpaced (hang indent a).glyphs :=
  ⟨ha.starts, ha.spaced⟩

/-- A function: its parameter and, behind an arrow, its body. -/
theorem isPhrase_function (indent : Int) (ha : IsPhrase a) (hb : IsPhrase b) :
    IsPhrase (group (concat [a, text " ", text "=>", hang indent b])) := by
  have harrow : IsSpaced (concat [text " ", text "=>", hang indent b]).glyphs :=
    (isSpaced_text (by decide)).append ((isSpaced_text (by decide)).append
      ((hb.hang indent).append trivial))
  have hall := ha.append harrow
  exact ⟨hall.starts, hall.spaced⟩

/-- A call: a function with its argument in brackets. -/
theorem isPhrase_call {opening closing : String} (hf : IsPhrase f) (hopening : KeepsLine opening)
    (ha : IsPhrase a) (hclosing : KeepsLine closing) :
    IsPhrase (concat [f, text opening, a, text closing]) :=
  hf.append ((isSpaced_text hopening).append
    (ha.spaced.append ((isSpaced_text hclosing).append trivial)))

/-- A local definition: its head, its value and, on a line of its own, its body. -/
theorem isPhrase_definition (indent : Int) (hf : IsPhrase f) (ha : IsPhrase a) (hb : IsPhrase b) :
    IsPhrase (group (concat [f, hang indent a, text ";", line, b])) := by
  have hbody : IsSpaced (concat [line, b]).glyphs := ⟨hb.starts.append [], hb.spaced.append trivial⟩
  have hvalue : IsSpaced (concat [hang indent a, text ";", line, b]).glyphs :=
    (ha.hang indent).append ((isSpaced_text (by decide)).append hbody)
  have hall := hf.append hvalue
  exact ⟨hall.starts, hall.spaced⟩

end

end Doc

end SelfTypes
