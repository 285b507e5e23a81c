import SelfTypes.Proofs.Layout.Spacing

/-!
# Documents that fit

The columns that a document takes on one line are those of its text, since no character of it ends a
line. A document whose breaks all belong to groups is set on one line if it fits there together with
what follows it on the page. Main statement: `render_of_displayWidth_le`.
-/

namespace SelfTypes

namespace Text

/-! ## Columns of a text -/

theorem charWidth_of_ascii {c : Char} (h : c.toNat < 0x80) : charWidth c = 1 := by
  -- both tables of ranges start above ASCII
  have hnone : ∀ ranges : List (Nat × Nat), (∀ r ∈ ranges, 0x80 ≤ r.1) →
      inRanges ranges c = false := by
    intro ranges hranges
    rw [inRanges, List.any_eq_false]
    intro r hr
    have hle := hranges r hr
    simp only [Bool.and_eq_true, decide_eq_true_eq, not_and]
    omega
  rw [charWidth, hnone zeroWidthRanges (by decide), hnone wideRanges (by decide)]
  rfl

theorem columns_cons {c : Char} (h : c ≠ '\r') (cs : List Char) :
    columns (c :: cs) = charWidth c + columns cs := by
  rw [columns]
  exact fun _ hc _ => h hc

/-- Each character of a text without carriage returns takes its own columns. -/
theorem columns_append {cs : List Char} (h : '\r' ∉ cs) (cs' : List Char) :
    columns (cs ++ cs') = columns cs + columns cs' := by
  induction cs with
  | nil => exact (Nat.zero_add _).symm
  | cons c cs ih =>
    rw [List.mem_cons, not_or] at h
    have hc : c ≠ '\r' := fun heq => h.1 heq.symm
    rw [List.cons_append, columns_cons hc, columns_cons hc, ih h.2, Nat.add_assoc]

theorem columns_of_ascii {cs : List Char} (h : '\r' ∉ cs) (hascii : ∀ c ∈ cs, c.toNat < 0x80) :
    columns cs = cs.length := by
  induction cs with
  | nil => rfl
  | cons c cs ih =>
    -- no character is a carriage return, which would start the columns anew
    rw [List.mem_cons, not_or] at h
    rw [List.forall_mem_cons] at hascii
    rw [columns_cons fun heq => h.1 heq.symm, ih h.2 hascii.2, charWidth_of_ascii hascii.1,
      List.length_cons, Nat.add_comm]

theorem displayWidth_eq_columns {s : String} (h : '\r' ∉ s.toList) :
    displayWidth s = columns s.toList := by
  unfold displayWidth
  split
  · rename_i hascii
    -- the short way takes the number of characters, which is right for ASCII
    rw [columns_of_ascii h fun c hc => of_decide_eq_true (List.all_eq_true.1 hascii c hc),
      String.length_toList]
  · rfl

end Text

namespace Doc

/-! ## Columns of a document -/

/-- The columns of a document on one line. -/
def width : Doc → Nat
  | empty => 0
  | text s => Text.displayWidth s
  | line => 1
  | append a b => a.width + b.width
  | nest _ d => d.width
  | group d => d.width

theorem width_eq_columns {d : Doc} (h : '\r' ∉ d.glyphs.map (·.getD ' ')) :
    d.width = Text.columns (d.glyphs.map (·.getD ' ')) := by
  induction d with
  | empty | line => rfl
  | text s =>
    -- a text stands for itself, and nothing in it is a break
    have htext : (text s).glyphs.map (·.getD ' ') = s.toList := by
      simp [glyphs, Function.comp_def]
    rw [htext] at h ⊢
    exact Text.displayWidth_eq_columns h
  | append a b iha ihb =>
    rw [glyphs, List.map_append] at h ⊢
    rw [List.mem_append, not_or] at h
    rw [width, iha h.1, ihb h.2, Text.columns_append h.1]
  | nest _ d ih | group d ih => exact ih h

/-- The columns of a document on one line are those of its text. -/
theorem width_eq_displayWidth {d : Doc} (h : IsSpaced d.glyphs) :
    d.width = Text.displayWidth d.flat := by
  have hflat : d.flat.toList = d.glyphs.map (·.getD ' ') := String.toList_ofList
  have hplain : '\r' ∉ d.flat.toList := by
    rw [hflat, List.mem_map]
    -- a carriage return would have to be a character of the document, which has none
    rintro ⟨_ | c, hg, hc⟩
    · cases hc
    · exact (h.not_lineEnd hg).2 hc
  rw [Text.displayWidth_eq_columns hplain, hflat]
  exact width_eq_columns (hflat ▸ hplain)

/-! ## Fitting -/

/-- The columns of what follows on the page, on one line. -/
def restWidth : Rest → Nat
  | [] => 0
  | (_, d) :: rest => d.width + restWidth rest

variable {limit : Nat}

/-- Reading a document that fits leads to the end of a line or not too far to the right. -/
theorem reach_of_width_le {d : Doc} (isFlat : Bool) {col : Nat} (h : col + d.width ≤ limit) :
    reach limit isFlat d col = .ended ∨
      ∃ col' ≤ col + d.width, reach limit isFlat d col = .column col' := by
  -- the reader goes from column to column, or ends at a break that is set
  induction d generalizing col with
  | empty => exact .inr ⟨col, Nat.le_refl col, rfl⟩
  | text s => exact .inr ⟨col + Text.displayWidth s, Nat.le_refl _, if_pos h⟩
  | line =>
    cases isFlat with
    | true => exact .inr ⟨col + 1, Nat.le_refl _, if_pos h⟩
    | false => exact .inl rfl
  | append a b iha ihb =>
    rw [width] at h ⊢
    have ha : col + a.width ≤ limit := by omega
    rcases iha ha with hended | ⟨col', hle, hcol⟩
    · exact .inl (by simp only [reach, hended])
    · have hb : col' + b.width ≤ limit := by omega
      rcases ihb hb with hended | ⟨col'', hle', hcol'⟩
      · exact .inl (by simp only [reach, hcol, hended])
      · exact .inr ⟨col'', by omega, by simp only [reach, hcol, hcol']⟩
  | nest _ d ih | group d ih => exact ih h

theorem restFits_of_restWidth_le {rest : Rest} {col : Nat} (h : col + restWidth rest ≤ limit) :
    restFits limit rest col = true := by
  induction rest generalizing col with
  | nil => rfl
  | cons next rest ih =>
    rw [restWidth] at h
    have hnext : col + next.2.width ≤ limit := by omega
    -- what follows is not flat, so it fits as soon as a break ends the line
    rcases reach_of_width_le false hnext with hended | ⟨col', hle, hcol⟩
    · rw [restFits, hended]
    · rw [restFits, hcol]
      exact ih (by omega)

theorem fits_of_width_le {d : Doc} {rest : Rest} {col : Nat}
    (h : col + d.width + restWidth rest ≤ limit) : fits limit d rest col = true := by
  have hd : col + d.width ≤ limit := by omega
  rcases reach_of_width_le true hd with hended | ⟨col', hle, hcol⟩
  · rw [fits, hended]
  · rw [fits, hcol]
    exact restFits_of_restWidth_le (by omega)

/-! ## Setting on one line -/

/-- All breaks of the document belong to groups of it. -/
def IsGrouped : Doc → Prop
  | empty | text _ | group _ => True
  | line => False
  | append a b => a.IsGrouped ∧ b.IsGrouped
  | nest _ d => d.IsGrouped

/-- A document that fits together with what follows it is set on one line. -/
theorem set_of_width_le {d : Doc} {indent : Nat} {isFlat : Bool} {rest : Rest} {g : Galley}
    (hgroups : isFlat = true ∨ d.IsGrouped) (h : g.col + d.width + restWidth rest ≤ limit) :
    set limit d indent isFlat rest g = ⟨g.out ++ d.flat, g.col + d.width⟩ := by
  -- the galley moves on with each part, and what is left of the limit with it
  induction d generalizing indent isFlat rest g with
  | empty => simp [set, width]
  | text s => simp [set, width]
  | line =>
    rw [hgroups.resolve_right id]
    simp [set, width]
  | append a b iha ihb =>
    rw [width] at h ⊢
    have ha : set limit a indent isFlat ((indent, b) :: rest) g =
        ⟨g.out ++ a.flat, g.col + a.width⟩ := by
      refine iha (hgroups.imp_right And.left) ?_
      rw [restWidth]
      omega
    have hb : set limit b indent isFlat rest ⟨g.out ++ a.flat, g.col + a.width⟩ =
        ⟨g.out ++ a.flat ++ b.flat, g.col + a.width + b.width⟩ := by
      refine ihb (hgroups.imp_right And.right) ?_
      rw [Nat.add_assoc g.col]
      exact h
    rw [set, ha, hb, flat_append, String.append_assoc, Nat.add_assoc]
  | nest amount d ih => exact ih hgroups h
  | group d ih =>
    -- the group fits, so it is set flat, and all breaks in it with it
    have hfits : fits limit d rest g.col = true := fits_of_width_le h
    rw [set, hfits, Bool.or_true]
    exact ih (.inl rfl) h

theorem render_of_displayWidth_le {d : Doc} (hspaced : IsSpaced d.glyphs) (hgroups : d.IsGrouped)
    (h : Text.displayWidth d.flat ≤ limit) : d.render limit = d.flat := by
  rw [← width_eq_displayWidth hspaced] at h
  have hset : set limit d 0 false [] {} = ⟨"" ++ d.flat, 0 + d.width⟩ :=
    set_of_width_le (.inr hgroups) (by simpa [restWidth] using h)
  rw [render, hset]
  exact String.empty_append

end Doc

end SelfTypes
