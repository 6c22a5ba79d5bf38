import Didl.Idl.Keyword
import Didl.Idl.Word
import Mathlib

namespace Didl.Idl

namespace Word
variable {text : String}

theorem isDigit_of_isNameStart {c : Char} (h : Lexeme.isNameStart c = true) :
    Text.isDigit c = false := by
  have hcode : 57 < c.toNat ∧ c.toNat < 128 := by
    simp only [Lexeme.isNameStart, Char.isAlpha, Char.isUpper, Char.isLower, Bool.or_eq_true,
      decide_eq_true_eq, beq_iff_eq, Bool.and_eq_true, UInt32.le_iff_toNat_le, ge_iff_le] at h
    change ((65 ≤ c.toNat ∧ c.toNat ≤ 90) ∨ (97 ≤ c.toNat ∧ c.toNat ≤ 122)) ∨ c = '_' at h
    rcases h with (h | h) | rfl
    · omega
    · omega
    · decide
  rw [Text.isDigit, Text.digitRanges, Text.Ranges.contains, if_neg (by omega), if_neg (by omega),
    Text.Ranges.contains, if_pos (by omega)]

theorem exists_of_isName (h : isName text = true) :
    ∃ c cs, text.toList = c :: cs ∧ Lexeme.isNameStart c = true := by
  unfold isName at h
  split at h
  · rename_i c cs hcs
    exact ⟨c, cs, hcs, (Bool.and_eq_true_iff.mp h).1⟩
  · cases h

theorem exists_of_isQuoted (h : isQuoted text = true) : ∃ cs, text.toList = '"' :: cs := by
  unfold isQuoted at h
  split at h
  · rename_i cs hcs
    exact ⟨cs, hcs⟩
  · cases h

theorem exists_of_isNumeral (h : isNumeral text = true) :
    ∃ c cs, text.toList = c :: cs ∧ (c = '+' ∨ c = '-' ∨ Text.isDigit c = true) := by
  unfold isNumeral at h
  split at h
  · rename_i ds hds
    exact ⟨_, _, hds, .inr (.inr (by decide))⟩
  · rename_i ds hds
    exact ⟨_, _, hds, .inr (.inr (by decide))⟩
  · rename_i ds hds
    exact ⟨_, _, hds, .inl rfl⟩
  · rename_i ds hds
    exact ⟨_, _, hds, .inr (.inl rfl)⟩
  · unfold isDecimal at h
    split at h
    · rename_i d ds hds
      exact ⟨d, ds, hds, .inr (.inr (Bool.and_eq_true_iff.mp h).1)⟩
    · cases h

theorem isName_of_isQuoted (h : isQuoted text = true) : isName text = false := by
  by_contra hname
  obtain ⟨cs, hquoted⟩ := exists_of_isQuoted h
  obtain ⟨c, cs', hcs, hstart⟩ := exists_of_isName (by simpa using hname)
  rw [hquoted] at hcs
  cases hcs
  exact absurd hstart (by decide)

theorem isName_of_isNumeral (h : isNumeral text = true) : isName text = false := by
  by_contra hname
  obtain ⟨c, cs, hnumeral, hc⟩ := exists_of_isNumeral h
  obtain ⟨c', cs', hcs, hstart⟩ := exists_of_isName (by simpa using hname)
  rw [hnumeral] at hcs
  cases hcs
  rcases hc with rfl | rfl | hdigit
  · exact absurd hstart (by decide)
  · exact absurd hstart (by decide)
  · simp [isDigit_of_isNameStart hstart] at hdigit

theorem isQuoted_of_isNumeral (h : isNumeral text = true) : isQuoted text = false := by
  by_contra hquoted
  obtain ⟨c, cs, hnumeral, hc⟩ := exists_of_isNumeral h
  obtain ⟨cs', hcs⟩ := exists_of_isQuoted (by simpa using hquoted)
  rw [hnumeral] at hcs
  cases hcs
  exact absurd hc (by decide)

def isWord (text : String) : Bool := isName text || isQuoted text || isNumeral text

theorem isWord_of_isName (h : isName text = true) : isWord text = true := by simp [isWord, h]

theorem isWord_of_isQuoted (h : isQuoted text = true) : isWord text = true := by simp [isWord, h]

theorem isWord_of_isNumeral (h : isNumeral text = true) : isWord text = true := by simp [isWord, h]

/-- Whoever is a word is nothing that is none. -/
theorem ne_of_isWord (h : isWord text = true) {mark : String} (hmark : isWord mark = false) :
    text ≠ mark := by
  rintro rfl
  rw [h] at hmark
  cases hmark

end Word

namespace Keyword

theorem exists_of_isPrimitive {word : String} (h : isPrimitive word = true) :
    ∃ p : Prim, p.keyword = word := by
  rw [isPrimitive, Prim.ofKeyword?, List.find?_isSome] at h
  obtain ⟨p, _, hp⟩ := h
  exact ⟨p, by simpa using hp⟩

theorem cases_of_startsType {word : String} (h : startsType word = true) :
    word = "opt" ∨ word = "vec" ∨ word = "blob" ∨ word = "record" ∨ word = "variant" ∨
      word = "func" ∨ word = "service" ∨ isPrimitive word = true := by
  simpa [startsType, formers, or_assoc] using h

theorem isName_of_startsType {word : String} (h : startsType word = true) :
    Word.isName word = true := by
  rcases cases_of_startsType h with rfl | rfl | rfl | rfl | rfl | rfl | rfl | h
  · decide
  · decide
  · decide
  · decide
  · decide
  · decide
  · decide
  · obtain ⟨p, rfl⟩ := exists_of_isPrimitive h
    cases p <;> decide

end Keyword
end Didl.Idl
