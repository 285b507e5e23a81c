import SelfTypes.Proofs.Code.Script
import SelfTypes.Proofs.Text.Escape

/-!
# The tokens of a text

A text is split into words, quoted literals and the signs between them; spaces and equals signs only
separate. Within quotes a backslash hides what follows it, so a literal ends at the first quote that
is not hidden. Main statements: `tokensOf_word` and `tokensOf_literalWord`, by which a word and a
quoted text are found again in front of what may follow them.
-/

namespace SelfTypes.Script

/-! ## Scanning -/

/-- Where a scan stands. -/
inductive Scan where
  /-- Outside quotes, behind the characters of a word. -/
  | inWord (w : List Char)
  /-- Within quotes. -/
  | inQuotes (w : List Char)
  /-- Within quotes, behind a backslash. -/
  | hidden (w : List Char)

/-- Whether a character opens and closes literals. -/
def isQuote (c : Char) : Bool :=
  c = '\'' || c = '"'

/-- The tokens of a character that ends words. -/
def sign? : Char → Option (List Token)
  | '(' => some [.left]
  | ')' => some [.right]
  | '>' => some [.arrow]
  | ';' => some [.semicolon]
  | ' ' | '=' => some []
  | _ => none

/-- The token of a word. -/
def wordToken (w : String) : Token :=
  if w = "let" then .letWord else .word w

/-- The tokens of the characters of a word, if there are any. -/
def wordTokens : List Char → List Token
  | [] => []
  | w => [wordToken (String.ofList w)]

/-- The tokens of a text. -/
def scan : Scan → List Char → List Token
  | .inWord w, [] => wordTokens w
  | .inQuotes _, [] | .hidden _, [] => []
  -- a word goes on until a quote or a sign, and is left out if it is empty
  | .inWord w, c :: cs =>
    if isQuote c then wordTokens w ++ scan (.inQuotes [c]) cs
    else match sign? c with
      | some ts => wordTokens w ++ ts ++ scan (.inWord []) cs
      | none => scan (.inWord (w ++ [c])) cs
  | .inQuotes w, c :: cs =>
    if isQuote c then .word (String.ofList (w ++ [c])) :: scan (.inWord []) cs
    -- the character behind a backslash does not close the quotes
    else if c = '\\' then scan (.hidden (w ++ [c])) cs
    else scan (.inQuotes (w ++ [c])) cs
  | .hidden w, c :: cs => scan (.inQuotes (w ++ [c])) cs

/-- The tokens of a text from its start. -/
def tokensOf (cs : List Char) : List Token :=
  scan (.inWord []) cs

/-! ## Signs -/

section

variable (cs : List Char)

@[simp] theorem tokensOf_left : tokensOf ('(' :: cs) = .left :: tokensOf cs := rfl

@[simp] theorem tokensOf_right : tokensOf (')' :: cs) = .right :: tokensOf cs := rfl

@[simp] theorem tokensOf_arrow : tokensOf ('>' :: cs) = .arrow :: tokensOf cs := rfl

@[simp] theorem tokensOf_semicolon : tokensOf (';' :: cs) = .semicolon :: tokensOf cs := rfl

@[simp] theorem tokensOf_space : tokensOf (' ' :: cs) = tokensOf cs := rfl

@[simp] theorem tokensOf_equals : tokensOf ('=' :: cs) = tokensOf cs := rfl

end

/-! ## Words -/

/-- A character that neither opens a literal nor ends a word. -/
def IsWordChar (c : Char) : Prop :=
  isQuote c = false ∧ sign? c = none

instance (c : Char) : Decidable (IsWordChar c) :=
  inferInstanceAs (Decidable (_ ∧ _))

/-- A word that needs no quotes. -/
def IsBareWord (w : String) : Prop :=
  w ≠ "" ∧ ∀ c ∈ w.toList, IsWordChar c

instance (w : String) : Decidable (IsBareWord w) :=
  have : Decidable (∀ c ∈ w.toList, IsWordChar c) := List.decidableBAll _ _
  inferInstanceAs (Decidable (_ ∧ _))

/-- A text that a word may stand in front of: it is empty or starts with a sign. -/
def EndsWord : List Char → Prop
  | [] => True
  | c :: _ => isQuote c = false ∧ (sign? c).isSome = true

theorem endsWord_left (cs : List Char) : EndsWord ('(' :: cs) := ⟨rfl, rfl⟩

theorem endsWord_right (cs : List Char) : EndsWord (')' :: cs) := ⟨rfl, rfl⟩

theorem endsWord_semicolon (cs : List Char) : EndsWord (';' :: cs) := ⟨rfl, rfl⟩

theorem endsWord_space (cs : List Char) : EndsWord (' ' :: cs) := ⟨rfl, rfl⟩

theorem scan_inWord {w : List Char} (hw : ∀ c ∈ w, IsWordChar c) (before cs : List Char) :
    scan (.inWord before) (w ++ cs) = scan (.inWord (before ++ w)) cs := by
  -- the part of the word that was scanned before grows with each character
  induction w generalizing before with
  | nil => rw [List.append_nil, List.nil_append]
  | cons c w ih =>
    rw [List.forall_mem_cons] at hw
    obtain ⟨⟨hquote, hsign⟩, hw⟩ := hw
    simp only [List.cons_append, scan, hquote, hsign, Bool.false_eq_true, if_false]
    rw [ih hw, List.append_assoc]
    rfl

/-- A word ends where a sign stands behind it. -/
theorem scan_inWord_of_endsWord (w : List Char) {cs : List Char} (hcs : EndsWord cs) :
    scan (.inWord w) cs = wordTokens w ++ tokensOf cs := by
  cases cs with
  | nil => exact (List.append_nil _).symm
  | cons c cs =>
    -- what follows ends the word, be it a quote or a sign
    obtain ⟨hquote, hsign⟩ := hcs
    obtain ⟨ts, hts⟩ := Option.isSome_iff_exists.1 hsign
    simp only [tokensOf, scan, hquote, hts, Bool.false_eq_true, if_false, wordTokens,
      List.nil_append, List.append_assoc]

theorem tokensOf_word {w : String} (hw : IsBareWord w) {cs : List Char} (hcs : EndsWord cs) :
    tokensOf (w.toList ++ cs) = wordToken w :: tokensOf cs := by
  have hchars : w.toList ≠ [] := fun hnil => hw.1 (String.toList_eq_nil_iff.1 hnil)
  -- the word has characters, so it is one token and not none
  have htokens : wordTokens w.toList = [wordToken w] := by
    unfold wordTokens
    split
    · rename_i heq
      exact absurd heq hchars
    · rw [String.ofList_toList]
  rw [tokensOf, scan_inWord hw.2, List.nil_append, scan_inWord_of_endsWord w.toList hcs, htokens]
  rfl

/-! ## Quoted literals -/

theorem scan_inQuotes_plain {ds : List Char} (hds : ∀ d ∈ ds, isQuote d = false ∧ d ≠ '\\')
    (w cs : List Char) : scan (.inQuotes w) (ds ++ cs) = scan (.inQuotes (w ++ ds)) cs := by
  induction ds generalizing w with
  | nil => rw [List.append_nil, List.nil_append]
  | cons d ds ih =>
    rw [List.forall_mem_cons] at hds
    obtain ⟨⟨hquote, hbackslash⟩, hds⟩ := hds
    simp only [List.cons_append, scan, hquote, hbackslash, Bool.false_eq_true, if_false]
    rw [ih hds, List.append_assoc]
    rfl

/-- No spelling of a character closes the quotes around it. -/
theorem scan_inQuotes_spelling {c : Char} {s : List Char} (h : Text.Spelling c s)
    (w cs : List Char) :
    scan (.inQuotes w) (s ++ cs) = scan (.inQuotes (w ++ s)) cs := by
  -- what a backslash hides is passed over, and the plain characters behind it
  have hhidden : ∀ d ds, (∀ e ∈ ds, isQuote e = false ∧ e ≠ '\\') →
      scan (.inQuotes w) ('\\' :: d :: ds ++ cs) = scan (.inQuotes (w ++ '\\' :: d :: ds)) cs := by
    intro d ds hds
    have h := scan_inQuotes_plain hds (w ++ ['\\'] ++ [d]) cs
    simp only [List.append_assoc, List.cons_append, List.nil_append] at h
    rw [← h]
    simp [scan, isQuote]
  cases h with
  | verbatim hc =>
    refine scan_inQuotes_plain (fun d hd => ?_) w cs
    rw [List.mem_singleton.1 hd]
    exact ⟨by simp [isQuote, hc.notQuote.1, hc.notQuote.2], hc.notBackslash⟩
  | short letter => exact hhidden letter [] (fun _ h => by cases h)
  | code =>
    -- a digit of a code is neither a quote nor a backslash
    have hdigit : ∀ k < 16, isQuote (Nat.digitChar k) = false ∧ Nat.digitChar k ≠ '\\' := by decide
    refine hhidden 'u' _ fun d hd => ?_
    simp only [List.mem_cons, List.mem_append, List.not_mem_nil, or_false] at hd
    rcases hd with rfl | hd | rfl
    · decide
    · obtain ⟨k, hk, rfl⟩ := Text.exists_digitChar_of_mem_hex hd
      exact hdigit k hk
    · decide

theorem scan_inQuotes_escape (w s cs : List Char) :
    scan (.inQuotes w) (s.flatMap Text.escapeChar ++ cs) =
      scan (.inQuotes (w ++ s.flatMap Text.escapeChar)) cs := by
  induction s generalizing w with
  | nil => rw [List.flatMap_nil, List.append_nil, List.nil_append]
  | cons c s ih =>
    rw [List.flatMap_cons, List.append_assoc, scan_inQuotes_spelling (Text.spelling_escapeChar c),
      ih, List.append_assoc]

/-- An escaped text between two quotes. -/
def literalWord (q : Char) (s : List Char) : String :=
  String.ofList (q :: (s.flatMap Text.escapeChar ++ [q]))

@[simp] theorem toList_literalWord (q : Char) (s : List Char) :
    (literalWord q s).toList = q :: (s.flatMap Text.escapeChar ++ [q]) :=
  String.toList_ofList

theorem literalWord_inj {q q' : Char} {s s' : List Char} (h : literalWord q s = literalWord q' s') :
    q = q' ∧ s = s' := by
  obtain ⟨rfl, htail⟩ := List.cons.inj (String.ofList_injective h)
  exact ⟨rfl, Text.flatMap_escapeChar_injective (List.append_cancel_right htail)⟩

/-- A word that needs no quotes is no quoted literal. -/
theorem IsBareWord.ne_literalWord {w : String} (hw : IsBareWord w) {q : Char}
    (hq : isQuote q = true) (s : List Char) : w ≠ literalWord q s := by
  rintro rfl
  have hplain := (hw.2 q (by rw [toList_literalWord]; exact List.mem_cons_self)).1
  rw [hq] at hplain
  cases hplain

/-- An escaped text between quotes is one token. -/
theorem tokensOf_literalWord {q : Char} (hq : isQuote q = true) (s cs : List Char) :
    tokensOf ((literalWord q s).toList ++ cs) = .word (literalWord q s) :: tokensOf cs := by
  have hopen : tokensOf ((literalWord q s).toList ++ cs) =
      scan (.inQuotes [q]) (s.flatMap Text.escapeChar ++ q :: cs) := by
    simp [tokensOf, scan, hq, wordTokens]
  rw [hopen, scan_inQuotes_escape]
  simp only [scan, hq, if_true, List.cons_append, List.nil_append]
  rfl

end SelfTypes.Script
