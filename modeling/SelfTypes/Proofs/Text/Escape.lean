import Mathlib.Data.List.Basic
import SelfTypes.Text.Escape

/-!
# Escapes can be undone

An escaped character is spelled in printable ASCII, in one of three ways: verbatim, by a short
escape, or by its code. Main statements: `escapeChar_append_inj`, by which the spelling of a
character can be told from what follows it and is that of no other character, and
`escape_injective`.
-/

namespace SelfTypes.Text

/-! ## Hexadecimal digits -/

theorem exists_digitChar_of_mem_hex {n : Nat} {c : Char} (h : c ∈ Nat.toDigits 16 n) :
    ∃ k < 16, c = Nat.digitChar k := by
  induction n using Nat.strongRecOn with
  | ind n ih =>
    rcases Nat.lt_or_ge n 16 with hlt | hge
    · rw [Nat.toDigits_of_lt_base hlt, List.mem_singleton] at h
      exact ⟨n, hlt, h⟩
    · rw [Nat.toDigits_of_base_le (by decide) hge, List.mem_append, List.mem_singleton] at h
      rcases h with h | h
      · exact ih (n / 16) (by omega) h
      · exact ⟨n % 16, Nat.mod_lt n (by decide), h⟩

/-- The number is known from its digits: from the last one, and from those in front of it. -/
theorem hex_injective {n m : Nat} (h : Nat.toDigits 16 n = Nat.toDigits 16 m) : n = m := by
  -- digits are told apart one by one, as there are sixteen
  have hdigit : ∀ j < 16, ∀ k < 16, Nat.digitChar j = Nat.digitChar k → j = k := by decide
  induction n using Nat.strongRecOn generalizing m with
  | ind n ih =>
    have hlength := congrArg List.length h
    rcases Nat.lt_or_ge n 16 with hn | hn <;> rcases Nat.lt_or_ge m 16 with hm | hm
    · rw [Nat.toDigits_of_lt_base hn, Nat.toDigits_of_lt_base hm] at h
      exact hdigit n hn m hm (List.singleton_inj.1 h)
    · -- one digit on the left, several on the right
      have hpos := Nat.length_toDigits_pos (b := 16) (n := m / 16)
      rw [Nat.toDigits_of_lt_base hn, Nat.toDigits_of_base_le (by decide) hm, List.length_append,
        List.length_singleton, List.length_singleton] at hlength
      omega
    -- several digits on the left, one on the right
    · have hpos := Nat.length_toDigits_pos (b := 16) (n := n / 16)
      rw [Nat.toDigits_of_lt_base hm, Nat.toDigits_of_base_le (by decide) hn, List.length_append,
        List.length_singleton, List.length_singleton] at hlength
      omega
    -- several digits on both sides: the last ones and the numbers in front of them agree
    · rw [Nat.toDigits_of_base_le (by decide) hn, Nat.toDigits_of_base_le (by decide) hm] at h
      obtain ⟨hfront, hlast⟩ := List.append_inj' h rfl
      have hdiv := ih (n / 16) (by omega) hfront
      have hmod := hdigit (n % 16) (Nat.mod_lt n (by decide)) (m % 16) (Nat.mod_lt m (by decide))
        (List.singleton_inj.1 hlast)
      omega

/-- What stands before the first of some characters is known, and what stands behind it. -/
theorem append_cons_inj {a : Char} {xs ys r r' : List Char} (hx : a ∉ xs) (hy : a ∉ ys)
    (h : xs ++ a :: r = ys ++ a :: r') : xs = ys ∧ r = r' := by
  induction xs generalizing ys with
  | nil =>
    cases ys with
    | nil => exact ⟨rfl, (List.cons.inj h).2⟩
    -- the mark would occur in the first text, which has none
    | cons y ys => exact absurd (List.mem_cons.2 (.inl (List.cons.inj h).1)) hy
  | cons x xs ih =>
    cases ys with
    | nil => exact absurd (List.mem_cons.2 (.inl (List.cons.inj h).1.symm)) hx
    | cons y ys =>
      rw [List.mem_cons, not_or] at hx hy
      obtain ⟨hhead, htail⟩ := List.cons.inj h
      obtain ⟨hfront, hrest⟩ := ih hx.2 hy.2 htail
      exact ⟨by rw [hhead, hfront], hrest⟩

/-! ## The three spellings -/

/-- A character that stands for itself inside quotes. -/
structure IsVerbatim (c : Char) : Prop where
  printable : 0x20 ≤ c.toNat ∧ c.toNat ≤ 0x7e
  notQuote : c ≠ '\'' ∧ c ≠ '"'
  notBackslash : c ≠ '\\'

/-- The characters with a short escape, each with the letter that stands behind its backslash. -/
def shortEscapes : List (Char × Char) :=
  [('\t', 't'), ('\r', 'r'), ('\n', 'n'), ('\'', '\''), ('"', '"'), ('\\', '\\')]

/-- How a character is spelled inside quotes. -/
inductive Spelling (c : Char) : List Char → Prop where
  | verbatim : IsVerbatim c → Spelling c [c]
  | short (letter : Char) : (c, letter) ∈ shortEscapes → Spelling c ['\\', letter]
  | code : Spelling c ('\\' :: 'u' :: '\x7b' :: (Nat.toDigits 16 c.toNat ++ ['\x7d']))

theorem spelling_escapeChar (c : Char) : Spelling c (escapeChar c) := by
  unfold escapeChar
  split
  · exact .short 't' (by decide)
  · exact .short 'r' (by decide)
  · exact .short 'n' (by decide)
  · exact .short '\'' (by decide)
  · exact .short '"' (by decide)
  · exact .short '\\' (by decide)
  -- what has no short form stands for itself if it can be printed, and is written as a code if not
  · rename_i hquote hdouble hbackslash
    split
    · rename_i hprintable
      exact .verbatim ⟨hprintable, ⟨hquote, hdouble⟩, hbackslash⟩
    · exact .code

namespace Spelling

variable {c c' : Char} {s s' : List Char}

/-- A spelling consists of printable ASCII characters. -/
theorem printable (h : Spelling c s) {d : Char} (hd : d ∈ s) : 0x20 ≤ d.toNat ∧ d.toNat ≤ 0x7e := by
  cases h with
  | verbatim hc =>
    rw [List.mem_singleton.1 hd]
    exact hc.printable
  | short letter hshort =>
    -- the letters of the short forms and the digits are printable, as going through them shows
    have hletter : ∀ p ∈ shortEscapes, 0x20 ≤ p.2.toNat ∧ p.2.toNat ≤ 0x7e := by decide
    simp only [List.mem_cons, List.not_mem_nil, or_false] at hd
    rcases hd with rfl | rfl
    · decide
    · exact hletter _ hshort
  | code =>
    have hdigit : ∀ k < 16, 0x20 ≤ (Nat.digitChar k).toNat ∧ (Nat.digitChar k).toNat ≤ 0x7e := by
      decide
    simp only [List.mem_cons, List.mem_append, List.not_mem_nil, or_false] at hd
    rcases hd with rfl | rfl | rfl | hd | rfl
    · decide
    · decide
    · decide
    · obtain ⟨k, hk, rfl⟩ := exists_digitChar_of_mem_hex hd
      exact hdigit k hk
    · decide

/-- The end of a spelling can be seen, and it spells one character only. -/
theorem append_inj (h : Spelling c s) (h' : Spelling c' s') {r r' : List Char}
    (heq : s ++ r = s' ++ r') : c = c' ∧ r = r' := by
  -- short forms are told apart by their letters, and a code by the one that no short form has
  have hsame : ∀ p ∈ shortEscapes, ∀ q ∈ shortEscapes, p.2 = q.2 → p.1 = q.1 := by decide
  have hletter : ∀ p ∈ shortEscapes, p.2 ≠ 'u' := by decide
  have hbrace : ∀ n, '\x7d' ∉ Nat.toDigits 16 n := by
    intro n hmem
    obtain ⟨k, hk, heq⟩ := exists_digitChar_of_mem_hex hmem
    exact Nat.digitChar_ne '\x7d' (by decide) heq.symm
  cases h with
  | verbatim hc =>
    cases h' with
    | verbatim => exact List.cons.inj heq
    -- only what stands for itself does not start with a backslash
    | short | code => exact absurd (List.cons.inj heq).1 hc.notBackslash
  | short letter hshort =>
    cases h' with
    | verbatim hc => exact absurd (List.cons.inj heq).1.symm hc.notBackslash
    | short letter' hshort' =>
      obtain ⟨hletters, hrest⟩ := List.cons.inj (List.cons.inj heq).2
      exact ⟨hsame _ hshort _ hshort' hletters, hrest⟩
    | code => exact absurd (List.cons.inj (List.cons.inj heq).2).1 (hletter _ hshort)
  | code =>
    cases h' with
    | verbatim hc => exact absurd (List.cons.inj heq).1.symm hc.notBackslash
    | short letter' hshort' =>
      exact absurd (List.cons.inj (List.cons.inj heq).2).1.symm (hletter _ hshort')
    | code =>
      -- the digits end at the first closing brace
      simp only [List.cons_append, List.append_assoc, List.nil_append, List.cons.injEq,
        true_and] at heq
      obtain ⟨hdigits, hrest⟩ := append_cons_inj (hbrace _) (hbrace _) heq
      exact ⟨Char.toNat_inj.1 (hex_injective hdigits), hrest⟩

end Spelling

theorem escapeChar_append_inj {c c' : Char} {r r' : List Char}
    (h : escapeChar c ++ r = escapeChar c' ++ r') : c = c' ∧ r = r' :=
  (spelling_escapeChar c).append_inj (spelling_escapeChar c') h

theorem flatMap_escapeChar_injective {cs cs' : List Char}
    (h : cs.flatMap escapeChar = cs'.flatMap escapeChar) : cs = cs' := by
  -- no character is left out, so the two texts end at the same time
  have hne : ∀ c, escapeChar c ≠ [] := fun c hnil => by
    have hspelling := spelling_escapeChar c
    rw [hnil] at hspelling
    cases hspelling
  induction cs generalizing cs' with
  | nil =>
    cases cs' with
    | nil => rfl
    | cons c cs' =>
      rw [List.flatMap_cons] at h
      exact absurd (List.append_eq_nil_iff.1 h.symm).1 (hne c)
  | cons c cs ih =>
    cases cs' with
    | nil =>
      rw [List.flatMap_cons] at h
      exact absurd (List.append_eq_nil_iff.1 h).1 (hne c)
    | cons c' cs' =>
      obtain ⟨rfl, htail⟩ := escapeChar_append_inj h
      rw [ih htail]

theorem escape_injective {s s' : String} (h : escape s = escape s') : s = s' :=
  String.toList_injective (flatMap_escapeChar_injective (String.ofList_injective h))

end SelfTypes.Text
