import Mathlib.Algebra.Group.Nat.Defs
import SelfTypes.Elaboration.Basic
import SelfTypes.Proofs.Term.FreeVariables
import SelfTypes.Term.Literal

/-!
# Decoding inverts encoding

A term stands for a literal if, without its locations, it is the term that the literal is encoded
as. Words, characters and strings are treated in turn, each by what the decoder makes of a term and
what the encoder makes of a value. Main statement: `decode_iff_encode`.

Literals are built from globals by application. So a scope that is opened with annotated values has
the literals that it had before, see `literal?_openAt`.
-/

namespace SelfTypes.Term

/-! ## Through locations -/

/-- A global is recognised through the locations around it. -/
theorem isRef_iff {name : DefName} {t : Term} : t.isRef name = true ↔ t.unlocate = ref name := by
  induction t with
  | loc _ _ ih => exact ih
  | _ => simp [isRef, peel, unlocate]

/-- An application of a global is recognised like this too, and gives its argument as it stands. -/
theorem argumentOf?_iff {name : DefName} {t u : Term} :
    (∃ a, t.argumentOf? name = some a ∧ a.unlocate = u) ↔
      t.unlocate = app (ref name) u false := by
  induction t with
  | loc _ _ ih => exact ih
  | app f a er => cases er <;> simp [argumentOf?, peel, unlocate, isRef_iff, and_assoc]
  | _ => simp [argumentOf?, peel, unlocate]

theorem unlocate_of_argumentOf? {name : DefName} {t a : Term} (h : t.argumentOf? name = some a) :
    t.unlocate = app (ref name) a.unlocate false :=
  argumentOf?_iff.1 ⟨a, h, rfl⟩

/-! ## Words -/

/-- No term is an application of both constructors of words. -/
theorem argumentOf?_zero_eq_none {t a : Term} (h : t.argumentOf? "Word.1" = some a) :
    t.argumentOf? "Word.0" = none := by
  rw [Option.eq_none_iff_forall_ne_some]
  intro a' h'
  have hone := unlocate_of_argumentOf? h
  simp [unlocate_of_argumentOf? h'] at hone

/-- The lowest bit of a word is told by its constructor, and the other bits by its argument. -/
theorem decodeWord?_succ_iff {bits code : Nat} {t : Term} :
    decodeWord? (bits + 1) t = some code ↔
      ∃ rest, t.argumentOf? (if code % 2 = 0 then "Word.0" else "Word.1") = some rest ∧
        decodeWord? bits rest = some (code / 2) := by
  constructor
  · intro h
    cases hzero : t.argumentOf? "Word.0" with
    -- a lowest bit that is clear stands for an even number, and the rest for its half
    | some rest =>
      obtain ⟨half, hhalf, rfl⟩ : ∃ half, decodeWord? bits rest = some half ∧ 2 * half = code := by
        simpa [decodeWord?, hzero] using h
      exact ⟨rest, by simp [hzero], by simp [hhalf]⟩
    | none =>
      -- and one that is set for an odd number
      obtain ⟨rest, hone, half, hhalf, rfl⟩ : ∃ rest, t.argumentOf? "Word.1" = some rest ∧
          ∃ half, decodeWord? bits rest = some half ∧ 2 * half + 1 = code := by
        simpa [decodeWord?, hzero, Option.bind_eq_some_iff] using h
      have hodd : (2 * half + 1) % 2 = 1 := by omega
      have hdiv : (2 * half + 1) / 2 = half := by omega
      exact ⟨rest, by simp [hodd, hone], by simp [hdiv, hhalf]⟩
  · rintro ⟨rest, hrest, hhalf⟩
    by_cases hbit : code % 2 = 0
    · have heven : 2 * (code / 2) = code := by omega
      simp only [hbit, if_true] at hrest
      simp [decodeWord?, hrest, hhalf, heven]
    · have hodd : 2 * (code / 2) + 1 = code := by omega
      simp only [hbit, if_false] at hrest
      simp [decodeWord?, argumentOf?_zero_eq_none hrest, hrest, hhalf, hodd]

/-- A word is read as the number that it is written for. -/
theorem decodeWord?_iff {bits code : Nat} {t : Term} :
    decodeWord? bits t = some code ↔ code < 2 ^ bits ∧ encodeWord bits code = t.unlocate := by
  induction bits generalizing t code with
  | zero =>
    have hzero : 0 = code ↔ code < 2 ^ 0 := by omega
    rw [decodeWord?, encodeWord, Option.ite_none_right_eq_some, isRef_iff, Option.some_inj, hzero,
      and_comm, eq_comm]
  | succ bits ih =>
    have hlt : code / 2 < 2 ^ bits ↔ code < 2 ^ (bits + 1) := by omega
    rw [decodeWord?_succ_iff]
    constructor
    · rintro ⟨rest, hrest, hhalf⟩
      -- from the term to the number: the bits that are left are half of it
      obtain ⟨hbound, hcode⟩ := ih.1 hhalf
      refine ⟨hlt.1 hbound, ?_⟩
      rw [encodeWord, hcode, unlocate_of_argumentOf? hrest]
    · rintro ⟨hbound, hcode⟩
      -- from the number to the term: the encoding shows which constructor there is
      obtain ⟨rest, hrest, hunlocate⟩ := argumentOf?_iff.2 hcode.symm
      exact ⟨rest, hrest, ih.2 ⟨hlt.2 hbound, hunlocate.symm⟩⟩

/-! ## Characters -/

theorem encodeChar?_eq_some_iff {c : Char} {u : Term} :
    encodeChar? c = some u ↔
      c.toNat < 2 ^ charBits ∧ app (ref "U16.new") (encodeWord charBits c.toNat) false = u := by
  simp [encodeChar?]

/-- A valid code is the code of its character. -/
theorem toNat_ofNat_of_valid {code : Nat} (h : code.isValidChar) :
    (Char.ofNat code).toNat = code := by
  rw [Char.ofNat, dif_pos h]
  rfl

theorem decodeChar?_iff {c : Char} {t : Term} :
    t.decodeChar? = some c ↔ encodeChar? c = some t.unlocate := by
  simp only [encodeChar?_eq_some_iff, decodeChar?, Option.bind_eq_bind, Option.bind_eq_some_iff,
    decodeWord?_iff]
  constructor
  · rintro ⟨word, hword, code, ⟨hbound, hcode⟩, h⟩
    split at h
    · rename_i hvalid
      cases h
      rw [toNat_ofNat_of_valid hvalid, hcode, unlocate_of_argumentOf? hword]
      exact ⟨hbound, rfl⟩
    · -- a surrogate is no character
      cases h
  · rintro ⟨hbound, hterm⟩
    obtain ⟨word, hword, hunlocate⟩ := argumentOf?_iff.2 hterm.symm
    -- every character has a valid code, so the check does not refuse it
    have hvalid : c.toNat.isValidChar := c.valid
    exact ⟨word, hword, c.toNat, ⟨hbound, hunlocate.symm⟩, by simp [hvalid]⟩

/-! ## Strings -/

theorem encodeChars?_cons_eq_some_iff {c : Char} {cs : List Char} {u : Term} :
    encodeChars? (c :: cs) = some u ↔
      ∃ head, encodeChar? c = some head ∧ ∃ tail, encodeChars? cs = some tail ∧
        app (app (ref "String.cons") head false) tail false = u := by
  simp [encodeChars?, apps, Option.bind_eq_some_iff]

/-- The empty string is the only one that is encoded as a global. -/
theorem encodeChars?_eq_some_ref_iff {cs : List Char} {n : DefName} :
    encodeChars? cs = some (ref n) ↔ n = "String.nil" ∧ cs = [] := by
  cases cs with
  | nil => simp [encodeChars?, eq_comm]
  | cons c cs => simp [encodeChars?_cons_eq_some_iff]

/-- Other strings are encoded as a character that is applied to, and the string that follows. -/
theorem encodeChars?_eq_some_app_iff {cs : List Char} {f rest : Term} {er : Bool} :
    encodeChars? cs = some (app f rest er) ↔
      er = false ∧ ∃ c head cs', cs = c :: cs' ∧ f = app (ref "String.cons") head false ∧
        encodeChar? c = some head ∧ encodeChars? cs' = some rest := by
  cases cs with
  | nil => simp [encodeChars?]
  | cons c cs =>
    rw [encodeChars?_cons_eq_some_iff]
    constructor
    · rintro ⟨head, hhead, tail, htail, h⟩
      -- a string that is not empty is an application, and its parts are known from it
      obtain ⟨rfl, rfl, rfl⟩ := Term.app.inj h
      exact ⟨rfl, c, head, cs, rfl, rfl, hhead, htail⟩
    · rintro ⟨rfl, c, head, cs, hcons, rfl, hhead, hrest⟩
      cases hcons
      exact ⟨head, hhead, rest, hrest, rfl⟩

theorem decodeChars?_iff {cs : List Char} {t : Term} :
    t.decodeChars? = some cs ↔ encodeChars? cs = some t.unlocate := by
  induction t generalizing cs with
  | loc _ _ ih => exact ih
  | ref n =>
    rw [unlocate, encodeChars?_eq_some_ref_iff]
    simp [decodeChars?, eq_comm]
  | app f rest er _ ih =>
    rw [unlocate, encodeChars?_eq_some_app_iff]
    cases er with
    -- erased applications write no string
    | true => simp [decodeChars?]
    | false =>
      simp only [decodeChars?, Option.bind_eq_bind, Option.bind_eq_some_iff]
      constructor
      · rintro ⟨a, ha, c, hc, cs', hcs', h⟩
        cases h
        exact ⟨trivial, c, a.unlocate, cs', rfl, unlocate_of_argumentOf? ha, decodeChar?_iff.1 hc,
          ih.1 hcs'⟩
      · rintro ⟨-, c, head, cs', rfl, hf, hhead, hrest⟩
        obtain ⟨a, ha, rfl⟩ := argumentOf?_iff.2 hf
        exact ⟨a, ha, c, decodeChar?_iff.2 hhead, cs', ih.2 hrest, rfl⟩
  | _ => cases cs <;> simp [decodeChars?, unlocate, encodeChars?, apps, Option.bind_eq_some_iff]

theorem decodeString?_iff {s : String} {t : Term} :
    t.decodeString? = some s ↔ encodeString? s = some t.unlocate := by
  rw [decodeString?, encodeString?, ← decodeChars?_iff, Option.map_eq_map, Option.map_eq_some_iff]
  constructor
  · rintro ⟨cs, hcs, rfl⟩
    simpa using hcs
  · intro h
    exact ⟨s.toList, h, by simp⟩

/-! ## Decoding undoes encoding -/

theorem unlocate_encodeWord (bits code : Nat) :
    (encodeWord bits code).unlocate = encodeWord bits code := by
  induction bits generalizing code with
  | zero => rfl
  | succ bits ih => simp [encodeWord, unlocate, ih]

theorem unlocate_of_encodeChar? {c : Char} {u : Term} (h : encodeChar? c = some u) :
    u.unlocate = u := by
  obtain ⟨-, rfl⟩ := encodeChar?_eq_some_iff.1 h
  simp [unlocate, unlocate_encodeWord]

theorem unlocate_of_encodeChars? {cs : List Char} {u : Term} (h : encodeChars? cs = some u) :
    u.unlocate = u := by
  induction cs generalizing u with
  | nil =>
    cases h
    rfl
  | cons c cs ih =>
    obtain ⟨head, hhead, tail, htail, rfl⟩ := encodeChars?_cons_eq_some_iff.1 h
    simp [unlocate, unlocate_of_encodeChar? hhead, ih htail]

/-- A string has an encoding if its characters have one. -/
theorem exists_encodeChars?_iff {cs : List Char} :
    (∃ u, encodeChars? cs = some u) ↔ ∀ c ∈ cs, c.toNat < 2 ^ charBits := by
  induction cs with
  | nil => simp [encodeChars?]
  | cons c cs ih =>
    -- a character and a string behind it are encoded one by one
    rw [List.forall_mem_cons, ← ih]
    simp only [encodeChars?_cons_eq_some_iff, encodeChar?_eq_some_iff]
    constructor
    · rintro ⟨u, head, ⟨hlt, -⟩, tail, htail, -⟩
      exact ⟨hlt, tail, htail⟩
    · rintro ⟨hlt, tail, htail⟩
      exact ⟨_, _, ⟨hlt, rfl⟩, tail, htail, rfl⟩

/-- Exactly the encodings are decoded, up to locations, and decoding gives back what was encoded. So
strings of characters that fit in sixteen bits, and no others, survive being encoded and decoded. -/
theorem decode_iff_encode (t : Term) (c : Char) (s : String) :
    (t.decodeChar? = some c ↔ encodeChar? c = some t.unlocate) ∧
      (t.decodeString? = some s ↔ encodeString? s = some t.unlocate) ∧
        ((∃ u, encodeString? s = some u ∧ u.decodeString? = some s) ↔
          ∀ c ∈ s.toList, c.toNat < Nat.pow 2 charBits) := by
  refine ⟨decodeChar?_iff, decodeString?_iff, ?_⟩
  rw [show Nat.pow 2 charBits = 2 ^ charBits from rfl, ← exists_encodeChars?_iff]
  refine exists_congr fun u => ⟨fun h => h.1, fun h => ⟨h, ?_⟩⟩
  rw [decodeString?_iff, unlocate_of_encodeChars? h]
  exact h

/-! ## Terms that write no literal -/

/-- The term writes neither a character nor a string. -/
structure NoLiteral (t : Term) : Prop where
  char : t.decodeChar? = none
  string : t.decodeString? = none

theorem NoLiteral.decodeChar?_ne {t : Term} (h : t.NoLiteral) (c : Char) :
    t.decodeChar? ≠ some c := by
  rw [h.char]
  nofun

theorem NoLiteral.decodeString?_ne {t : Term} (h : t.NoLiteral) (s : String) :
    t.decodeString? ≠ some s := by
  rw [h.string]
  nofun

/-- No term writes a character and a string. -/
theorem decodeString?_eq_none_of_decodeChar? {t : Term} {c : Char} (h : t.decodeChar? = some c) :
    t.decodeString? = none := by
  refine Option.eq_none_iff_forall_ne_some.2 fun s hs => ?_
  obtain ⟨-, hchar⟩ := encodeChar?_eq_some_iff.1 (decodeChar?_iff.1 h)
  have hstring : encodeChars? s.toList = some t.unlocate := decodeString?_iff.1 hs
  -- a string that is an application starts with `String.cons`, and a character with `U16.new`
  rw [← hchar, encodeChars?_eq_some_app_iff] at hstring
  obtain ⟨-, _, _, _, -, hhead, -⟩ := hstring
  cases hhead

theorem literal?_eq_none_iff {t : Term} : Elaborator.literal? t = none ↔ t.NoLiteral := by
  constructor
  · intro h
    unfold Elaborator.literal? at h
    split at h
    · cases h
    · rename_i hchar
      split at h
      · cases h
      · rename_i hstring
        exact ⟨hchar, hstring⟩
  · rintro ⟨hchar, hstring⟩
    simp only [Elaborator.literal?, hchar, hstring]

/-- A literal is one with and without the locations at its head. -/
theorem literal?_peel (t : Term) : Elaborator.literal? t.peel = Elaborator.literal? t := by
  induction t with
  | loc _ _ ih => exact ih
  | _ => rfl

/-! ## Literals under binders -/

/-- Whether a term is built from globals by application, up to locations. -/
def isPlain : Term → Bool
  | ref _ => true
  | app f a _ => f.isPlain && a.isPlain
  | loc _ e => e.isPlain
  | _ => false

theorem isPlain_unlocate (t : Term) : t.unlocate.isPlain = t.isPlain := by
  induction t with
  | loc _ _ ih => simpa only [unlocate, isPlain] using ih
  | app _ _ _ ih₁ ih₂ => simp only [unlocate, isPlain, ih₁, ih₂]
  | _ => rfl

theorem isPlain_encodeWord (bits code : Nat) : (encodeWord bits code).isPlain = true := by
  induction bits generalizing code with
  | zero => rfl
  | succ bits ih => simp [encodeWord, isPlain, ih]

theorem isPlain_of_encodeChar? {c : Char} {u : Term} (h : encodeChar? c = some u) :
    u.isPlain = true := by
  obtain ⟨-, rfl⟩ := encodeChar?_eq_some_iff.1 h
  simp [isPlain, isPlain_encodeWord]

theorem isPlain_of_encodeChars? {cs : List Char} {u : Term} (h : encodeChars? cs = some u) :
    u.isPlain = true := by
  induction cs generalizing u with
  | nil =>
    cases h
    rfl
  | cons c cs ih =>
    obtain ⟨head, hhead, tail, htail, rfl⟩ := encodeChars?_cons_eq_some_iff.1 h
    simp [isPlain, isPlain_of_encodeChar? hhead, ih htail]

theorem isPlain_of_literal? {t : Term} {r : Elaborated} (h : Elaborator.literal? t = some r) :
    t.isPlain = true := by
  rw [← isPlain_unlocate]
  obtain ⟨c, hc, -⟩ | ⟨s, hs, -⟩ := Elaborator.exists_of_literal? h
  · exact isPlain_of_encodeChar? (decodeChar?_iff.1 hc)
  · exact isPlain_of_encodeChars? (decodeString?_iff.1 hs)

section Opened

variable {values : List Term}

theorem openAt_of_isPlain {t : Term} (h : t.isPlain = true) (depth : Nat) :
    t.openAt values depth = t := by
  induction t with
  | ref => rfl
  | loc _ _ ih => simp only [openAt_loc, ih h]
  | app _ _ _ ih₁ ih₂ =>
    obtain ⟨h₁, h₂⟩ := Bool.and_eq_true_iff.1 h
    simp only [openAt_app, ih₁ h₁, ih₂ h₂]
  | _ => cases h

theorem isPlain_openAt (hvalues : ∀ v ∈ values, v.isAnn = true) (t : Term) (depth : Nat) :
    (t.openAt values depth).isPlain = t.isPlain := by
  induction t generalizing depth with
  | bound i =>
    obtain ⟨j, hj⟩ | ⟨done, e, ty, hann⟩ := openIndex_of_isAnn hvalues depth i
    · simp [hj, isPlain]
    · simp [hann, isPlain]
  | loc _ _ ih => simp only [openAt_loc, isPlain, ih]
  | app _ _ _ ih₁ ih₂ => simp only [openAt_app, isPlain, ih₁, ih₂]
  | _ => rfl

/-- Opening a scope with annotated values neither makes a literal nor destroys one. -/
theorem literal?_openAt (hvalues : ∀ v ∈ values, v.isAnn = true) (t : Term) (depth : Nat) :
    Elaborator.literal? (t.openAt values depth) = Elaborator.literal? t := by
  cases hplain : t.isPlain with
  | true => rw [openAt_of_isPlain hplain]
  | false =>
    -- neither of the two terms is plain, so neither is a literal
    have hnone : ∀ u : Term, u.isPlain = false → Elaborator.literal? u = none := by
      intro u hu
      refine Option.eq_none_iff_forall_ne_some.2 fun r hr => ?_
      rw [isPlain_of_literal? hr] at hu
      cases hu
    rw [hnone t hplain, hnone _ ((isPlain_openAt hvalues t depth).trans hplain)]

end Opened

end SelfTypes.Term
