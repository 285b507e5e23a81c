import SelfTypes.Layout.Doc

/-!
# What a layout does to a document

Setting a document decides for each of its breaks whether it is a space or the end of a line, and
does nothing else. Main statement: `joinLines_render`, by which the lines of a document that has a
word behind each break can be joined again to the text on one line, whatever the width was.
-/

namespace SelfTypes

namespace Doc

/-! ## Documents on one line -/

/-- The characters of a document, with `none` in the place of a break. -/
def glyphs : Doc → List (Option Char)
  | empty => []
  | text s => s.toList.map some
  | line => [none]
  | append a b => a.glyphs ++ b.glyphs
  | nest _ d => d.glyphs
  | group d => d.glyphs

/-- The text of a document with all its breaks as spaces. -/
def flat (d : Doc) : String :=
  String.ofList (d.glyphs.map (·.getD ' '))

@[simp] theorem flat_empty : empty.flat = "" := rfl

@[simp] theorem flat_text (s : String) : (text s).flat = s := by
  simp [flat, glyphs, Function.comp_def]

@[simp] theorem flat_line : line.flat = " " := rfl

@[simp] theorem flat_append (a b : Doc) : (append a b).flat = a.flat ++ b.flat := by
  simp only [flat, glyphs, List.map_append, String.ofList_append]

@[simp] theorem flat_nest (amount : Int) (d : Doc) : (nest amount d).flat = d.flat := rfl

@[simp] theorem flat_group (d : Doc) : (group d).flat = d.flat := rfl

@[simp] theorem flat_hang (indent : Int) (d : Doc) : (hang indent d).flat = " " ++ d.flat :=
  flat_append line d

@[simp] theorem flat_parens (d : Doc) : d.parens.flat = "(" ++ d.flat ++ ")" := by
  show ((text "(").append d |>.append (text ")")).flat = _
  simp only [flat_append, flat_text]

@[simp] theorem flat_concat_nil : (concat []).flat = "" := rfl

@[simp] theorem flat_concat_cons (d : Doc) (ds : List Doc) :
    (concat (d :: ds)).flat = d.flat ++ (concat ds).flat :=
  flat_append d (concat ds)

/-! ## Words behind breaks -/

/-- There is a first character, and it is not white space. -/
def StartsWord : List (Option Char) → Prop
  | some c :: _ => c.isWhitespace = false
  | _ => False

instance : (gs : List (Option Char)) → Decidable (StartsWord gs)
  | some c :: _ => inferInstanceAs (Decidable (c.isWhitespace = false))
  | [] | none :: _ => inferInstanceAs (Decidable False)

/-- Each break has a word behind it, and no character ends a line. -/
def IsSpaced : List (Option Char) → Prop
  | [] => True
  | none :: gs => StartsWord gs ∧ IsSpaced gs
  | some c :: gs => (c ≠ '\n' ∧ c ≠ '\r') ∧ IsSpaced gs

theorem StartsWord.append {gs : List (Option Char)} (h : StartsWord gs) (gs' : List (Option Char)) :
    StartsWord (gs ++ gs') := by
  rcases gs with _ | ⟨_ | c, gs⟩
  · exact h.elim
  · exact h.elim
  · exact h

theorem IsSpaced.append {gs gs' : List (Option Char)} (h : IsSpaced gs) (h' : IsSpaced gs') :
    IsSpaced (gs ++ gs') := by
  induction gs with
  | nil => exact h'
  | cons g gs ih =>
    cases g with
    | none => exact ⟨h.1.append gs', ih h.2⟩
    | some c => exact ⟨h.1, ih h.2⟩

theorem IsSpaced.not_lineEnd {gs : List (Option Char)} (h : IsSpaced gs) {c : Char}
    (hc : some c ∈ gs) : c ≠ '\n' ∧ c ≠ '\r' := by
  -- the list alternates between text and breaks, and only the text has characters
  induction gs with
  | nil => cases hc
  | cons g gs ih =>
    cases g with
    | none => exact ih h.2 ((List.mem_cons.1 hc).resolve_left (by simp))
    | some d =>
      rcases List.mem_cons.1 hc with heq | hmem
      · cases heq
        exact h.1
      · exact ih h.2 hmem

/-! ## Setting breaks -/

/-- The characters `cs` come of the glyphs when each break is set as a space or as the end of a line
with some indentation after it. -/
inductive Sets : List (Option Char) → List Char → Prop where
  | nil : Sets [] []
  | char (c : Char) {gs cs} : Sets gs cs → Sets (some c :: gs) (c :: cs)
  | space {gs cs} : Sets gs cs → Sets (none :: gs) (' ' :: cs)
  | newLine (indent : Nat) {gs cs} : Sets gs cs →
    Sets (none :: gs) ('\n' :: (List.replicate indent ' ' ++ cs))

theorem Sets.append {gs gs' : List (Option Char)} {cs cs' : List Char} (h : Sets gs cs)
    (h' : Sets gs' cs') : Sets (gs ++ gs') (cs ++ cs') := by
  induction h with
  | nil => exact h'
  | char c _ ih => exact .char c ih
  | space _ ih => exact .space ih
  | newLine indent _ ih =>
    rw [List.cons_append, List.cons_append, List.append_assoc]
    exact .newLine indent ih

theorem sets_map_some (cs : List Char) : Sets (cs.map some) cs := by
  induction cs with
  | nil => exact .nil
  | cons c cs ih => exact .char c ih

theorem toList_pushn (s : String) (c : Char) (n : Nat) :
    (s.pushn c n).toList = s.toList ++ List.replicate n c := by
  induction n with
  | zero => exact (List.append_nil _).symm
  | succ n ih =>
    have hpush : s.pushn c (n + 1) = (s.pushn c n).push c := rfl
    rw [hpush, String.toList_push, ih, List.replicate_succ', List.append_assoc]

theorem toList_newLine (g : Galley) (indent : Nat) :
    (g.newLine indent).out.toList = g.out.toList ++ '\n' :: List.replicate indent ' ' := by
  simp only [Galley.newLine, String.toList_append, toList_pushn]
  simp

/-- Setting a document sets its breaks after the text that is there. -/
theorem exists_sets (width : Nat) (d : Doc) (indent : Nat) (isFlat : Bool) (rest : Rest)
    (g : Galley) :
    ∃ cs, Sets d.glyphs cs ∧
      (set width d indent isFlat rest g).out.toList = g.out.toList ++ cs := by
  induction d generalizing indent isFlat rest g with
  | empty => exact ⟨[], .nil, (List.append_nil _).symm⟩
  | text s => exact ⟨s.toList, sets_map_some s.toList, String.toList_append⟩
  -- a break is a blank in a flat group, and otherwise ends the line
  | line =>
    cases isFlat with
    | true => exact ⟨[' '], .space .nil, String.toList_append⟩
    | false =>
      refine ⟨'\n' :: List.replicate (lineStart indent rest) ' ', ?_, toList_newLine g _⟩
      have h := Sets.newLine (lineStart indent rest) .nil
      rwa [List.append_nil] at h
  | append a b iha ihb =>
    -- the second part is set after the first one, in the galley that this leaves
    obtain ⟨cs, hcs, ha⟩ := iha indent isFlat ((indent, b) :: rest) g
    obtain ⟨cs', hcs', hb⟩ :=
      ihb indent isFlat rest (set width a indent isFlat ((indent, b) :: rest) g)
    refine ⟨cs ++ cs', hcs.append hcs', ?_⟩
    rw [set, hb, ha, List.append_assoc]
  | nest amount d ih => exact ih (shiftIndent indent amount) isFlat rest g
  -- the group is set flat or not, and its breaks may become either
  | group d ih => exact ih indent (isFlat || fits width d rest g.col) rest g

end Doc

/-! ## Joining lines -/

/-- The characters with a space in the place of each line end and of the spaces after it. `indented`
tells whether the characters start within the indentation of a line. -/
def joinFrom : (indented : Bool) → List Char → List Char
  | _, [] => []
  | _, '\n' :: cs => ' ' :: joinFrom true cs
  | indented, c :: cs => if indented ∧ c = ' ' then joinFrom true cs else c :: joinFrom false cs

/-- The text with each line end, together with the indentation after it, replaced by one space. -/
def joinLines (s : String) : String :=
  String.ofList (joinFrom false s.toList)

theorem joinFrom_char {c : Char} (hc : c ≠ '\n') (cs : List Char) :
    joinFrom false (c :: cs) = c :: joinFrom false cs := by
  simp [joinFrom]

theorem joinFrom_word {c : Char} (hc : c.isWhitespace = false) (cs : List Char) :
    joinFrom true (c :: cs) = joinFrom false (c :: cs) := by
  -- a character that is no white space neither ends the line nor is skipped as indentation
  have hend : c ≠ '\n' := by
    rintro rfl
    cases hc
  have hspace : c ≠ ' ' := by
    rintro rfl
    cases hc
  simp [joinFrom, hspace]

theorem joinFrom_indent (indent : Nat) (cs : List Char) :
    joinFrom true (List.replicate indent ' ' ++ cs) = joinFrom true cs := by
  induction indent with
  | zero => rfl
  | succ n ih =>
    rw [List.replicate_succ, List.cons_append, joinFrom, if_pos ⟨rfl, rfl⟩, ih]
    decide

namespace Doc

/-- Joining lines takes back what setting did, if there are words behind the breaks: the indentation
of a line ends where the word starts. -/
theorem joinFrom_of_sets {gs : List (Option Char)} {cs : List Char} (h : Sets gs cs)
    (hspaced : IsSpaced gs) : joinFrom false cs = gs.map (·.getD ' ') := by
  induction h with
  | nil => rfl
  | char c _ ih => rw [joinFrom_char hspaced.1.1, ih hspaced.2, List.map_cons, Option.getD_some]
  | space _ ih => rw [joinFrom_char (by decide), ih hspaced.2, List.map_cons, Option.getD_none]
  | @newLine indent gs cs hsets ih =>
    -- behind a break comes a word, which ends the indentation that is skipped
    have hword : joinFrom true cs = joinFrom false cs := by
      cases hsets with
      | char c => exact joinFrom_word hspaced.1 _
      | nil | space | newLine => exact hspaced.1.elim
    rw [joinFrom, joinFrom_indent, hword, ih hspaced.2, List.map_cons, Option.getD_none]

theorem joinLines_render {d : Doc} (hspaced : IsSpaced d.glyphs) (width : Nat) :
    joinLines (d.render width) = d.flat := by
  obtain ⟨cs, hcs, hset⟩ := exists_sets width d 0 false [] {}
  have hout : (d.render width).toList = cs := hset
  rw [joinLines, hout, joinFrom_of_sets hcs hspaced, flat]

end Doc

end SelfTypes
