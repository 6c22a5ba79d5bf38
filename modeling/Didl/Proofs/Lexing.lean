import Didl.Proofs.Acceptance

namespace Didl.Text

theorem Ranges.exists_of_contains {ranges : Ranges} {c : Char} (h : ranges.contains c = true) :
    ∃ r ∈ ranges, r.1 ≤ c.toNat ∧ c.toNat ≤ r.2 := by
  induction ranges with
  | nil => cases h
  | cons r ranges ih =>
    obtain ⟨first, last⟩ := r
    rw [contains] at h
    split_ifs at h with hfirst hlast
    · exact ⟨_, List.mem_cons_self, Nat.not_lt.mp hfirst, hlast⟩
    · obtain ⟨r, hr, hc⟩ := ih h
      exact ⟨r, List.mem_cons_of_mem _ hr, hc⟩

/-- White space is no part of a word, and no comment starts with it. -/
theorem apart_of_isBlank {c : Char} (h : isBlank c = true) :
    isWordChar c = false ∧ isDigit c = false ∧ c ∉ ['/', '+', '-', '"'] := by
  have hall : ∀ r ∈ blankRanges, ∀ n ∈ List.range' r.1 (r.2 + 1 - r.1),
      isWordChar (Char.ofNat n) = false ∧ isDigit (Char.ofNat n) = false ∧
        Char.ofNat n ∉ ['/', '+', '-', '"'] := by
    decide +kernel
  obtain ⟨r, hr, hfirst, hlast⟩ := Ranges.exists_of_contains h
  have hc := hall r hr c.toNat (List.mem_range'_1.mpr ⟨hfirst, by omega⟩)
  rwa [Char.ofNat_toNat] at hc

end Didl.Text

namespace Didl.Idl

/-- Lexemes that a text goes on with behind a character, and the words among them. -/
inductive Lexes : Option Char → List Char → List String → Prop
  | nil (before : Option Char) : Lexes before [] []
  | word {before : Option Char} {lexeme rest : List Char} {words : List String} :
      lexeme ≠ [] → Lexeme.length before (lexeme ++ rest) = lexeme.length →
      Lexeme.isSkipped lexeme = false → Lexes lexeme.getLast? rest words →
      Lexes before (lexeme ++ rest) (String.ofList lexeme :: words)
  | skipped {before : Option Char} {lexeme rest : List Char} {words : List String} :
      lexeme ≠ [] → Lexeme.length before (lexeme ++ rest) = lexeme.length →
      Lexeme.isSkipped lexeme = true → Lexes lexeme.getLast? rest words →
      Lexes before (lexeme ++ rest) words

theorem Token.scan_lexeme {before : Option Char} {lexeme rest : List Char} (hlexeme : lexeme ≠ [])
    (hlength : Lexeme.length before (lexeme ++ rest) = lexeme.length) (position : Position)
    (done : List Token) : Token.scan before position done (lexeme ++ rest) =
      Token.scan lexeme.getLast? (position.advance lexeme)
        (if Lexeme.isSkipped lexeme then done else ⟨String.ofList lexeme, position⟩ :: done) rest := by
  obtain ⟨c, cs, rfl⟩ := List.exists_cons_of_ne_nil hlexeme
  rw [List.cons_append] at hlength ⊢
  rw [Token.scan]
  dsimp only
  rw [hlength, if_neg (by simp), ← List.cons_append, List.take_left, List.drop_left]

/-- A source is split into its words. -/
theorem Lexes.scan {before : Option Char} {cs : List Char} {words : List String}
    (h : Lexes before cs words) (position : Position) (done : List Token) :
    ∃ tokens, Token.scan before position done cs = .ok (done.reverse ++ tokens) ∧
      tokens.map Token.text = words ++ [""] := by
  induction h generalizing position done with
  | nil => exact ⟨[⟨"", position⟩], by rw [Token.scan, List.reverse_cons], rfl⟩
  | @word before lexeme rest words hlexeme hlength hword _ ih =>
    obtain ⟨tokens, hscan, htexts⟩ :=
      ih (position.advance lexeme) (⟨String.ofList lexeme, position⟩ :: done)
    refine ⟨⟨String.ofList lexeme, position⟩ :: tokens, ?_, congrArg _ htexts⟩
    rw [Token.scan_lexeme hlexeme hlength, hword, if_neg Bool.false_ne_true, hscan,
      List.reverse_cons, List.append_assoc]
    rfl
  | @skipped before lexeme rest words hlexeme hlength hskipped _ ih =>
    rw [Token.scan_lexeme hlexeme hlength, hskipped, if_pos rfl]
    exact ih (position.advance lexeme) done

namespace Lexeme
open Text (isBlank isDigit isWordChar)
variable {before : Option Char} {c : Char} {cs rest : List Char}

theorem toNat_lt_of_isNameChar (h : isNameChar c = true) : c.toNat < 128 := by
  simp only [isNameChar, Char.isAlphanum, Char.isAlpha, Char.isUpper, Char.isLower, Char.isDigit,
    Bool.or_eq_true, decide_eq_true_eq, beq_iff_eq, Bool.and_eq_true, UInt32.le_iff_toNat_le,
    ge_iff_le] at h
  change (((65 ≤ c.toNat ∧ c.toNat ≤ 90) ∨ (97 ≤ c.toNat ∧ c.toNat ≤ 122)) ∨
    (48 ≤ c.toNat ∧ c.toNat ≤ 57)) ∨ c = '_' at h
  rcases h with ((h | h) | h) | rfl
  · omega
  · omega
  · omega
  · decide

theorem isNameChar_of_isNameStart (h : isNameStart c = true) : isNameChar c = true := by
  simp only [isNameStart, Bool.or_eq_true] at h
  simp only [isNameChar, Char.isAlphanum, Bool.or_eq_true]
  exact h.imp_left .inl

theorem isNameChar_of_isDigit (h : c.isDigit = true) : isNameChar c = true := by
  simp [isNameChar, Char.isAlphanum, h]

theorem isNameChar_of_isNumberChar (h : isNumberChar c = true) : isNameChar c = true := by
  simp only [isNumberChar, Bool.or_eq_true] at h
  simp only [isNameChar, Char.isAlphanum, Bool.or_eq_true]
  exact h.imp_left .inr

/-- Characters of names are in words, and no other lexeme than a number starts with one. -/
theorem apart_of_isNameChar (h : isNameChar c = true) :
    isWordChar c = true ∧ isBlank c = false ∧ isDigit c = c.isDigit ∧
      c ∉ ['/', '+', '-', '"', '=', ';', ':', ',', '(', ')', '{', '}'] := by
  have hall : ∀ n : Fin 128, isNameChar (Char.ofNat n) = true →
      isWordChar (Char.ofNat n) = true ∧ isBlank (Char.ofNat n) = false ∧
      isDigit (Char.ofNat n) = (Char.ofNat n).isDigit ∧
      Char.ofNat n ∉ ['/', '+', '-', '"', '=', ';', ':', ',', '(', ')', '{', '}'] := by
    decide +kernel
  have hc := hall ⟨c.toNat, toNat_lt_of_isNameChar h⟩
  rw [Char.ofNat_toNat] at hc
  exact hc h

/-- A run of characters of names ends where a word ends. -/
theorem takeWhile_word {p : Char → Bool} (hp : ∀ c, p c = true → isNameChar c = true)
    (hcs : ∀ c ∈ cs, p c = true) (hrest : endsWord rest = true) :
    (cs ++ rest).takeWhile p = cs := by
  rw [List.takeWhile_append_of_pos hcs]
  cases rest with
  | nil => simp
  | cons d ds =>
    have hword : isWordChar d = false := by simpa [endsWord] using hrest
    have hd : ¬ p d = true := fun hd => by simp [(apart_of_isNameChar (hp d hd)).1] at hword
    simp [hd]

theorem length_name (hstart : isNameStart c = true) (hcs : ∀ d ∈ cs, isNameChar d = true)
    (hbefore : before.any isWordChar = false) (hrest : endsWord rest = true) :
    length before (c :: cs ++ rest) = (c :: cs).length := by
  obtain ⟨_, hblank, _, hmark⟩ := apart_of_isNameChar (isNameChar_of_isNameStart hstart)
  simp only [List.mem_cons, List.not_mem_nil, or_false, not_or] at hmark
  have hdigit := Word.isDigit_of_isNameStart hstart
  have hzero : c ≠ '0' := by
    rintro rfl
    exact absurd hdigit (by decide)
  have hname : name before (c :: (cs ++ rest)) = cs.length + 1 := by
    rw [name, hstart, hbefore, takeWhile_word (fun _ h => h) hcs hrest]
    simp [upToWordEnd, Nat.add_comm 1, hrest]
  simp [length, firstOf, blockComment, lineComment, blanks, hexNumber, number, digitsFrom, quoted,
    arrow, punctuation, hblank, hdigit, hzero, hmark, hname]

section Decimal
variable {digits : List Char}

/-- No other lexeme starts with a digit of any script. -/
theorem apart_of_isDigit (h : isDigit c = true) : isBlank c = false ∧ c ∉ ['/', '+', '-'] := by
  constructor
  · by_contra hblank
    rw [(Text.apart_of_isBlank (by simpa using hblank)).2.1] at h
    cases h
  · intro hc
    simp only [List.mem_cons, List.not_mem_nil, or_false] at hc
    rcases hc with rfl | rfl | rfl <;> exact absurd h (by decide)

theorem digitsFrom_decimal (first : List Char) (h : Word.isDecimal digits = true)
    (hrest : endsWord rest = true) :
    digitsFrom (first ++ (digits ++ rest)) first.length = first.length + digits.length := by
  unfold Word.isDecimal at h
  split at h
  · rename_i d digits
    obtain ⟨hd, hdigits⟩ := Bool.and_eq_true_iff.mp h
    have hrun : (digits ++ rest).takeWhile isNumberChar = digits :=
      takeWhile_word (fun _ => isNameChar_of_isNumberChar) (List.all_eq_true.mp hdigits) hrest
    have hdrop : (first ++ (d :: digits ++ rest)).drop (first.length + 1 + digits.length) = rest := by
      rw [← List.append_assoc, List.drop_left']
      simp [Nat.add_assoc, Nat.add_comm 1]
    rw [digitsFrom, List.drop_left, List.cons_append]
    dsimp only
    rw [if_pos hd, hrun, ← List.cons_append, upToWordEnd, hdrop, if_pos hrest, List.length_cons]
    omega
  · cases h

/-- Digits in base ten are no number in base sixteen. -/
theorem hexNumber_decimal (h : Word.isDecimal digits = true) (hrest : endsWord rest = true) :
    hexNumber (digits ++ rest) = 0 := by
  unfold hexNumber
  split
  · rename_i x ds heq
    have hx : ¬ (x = 'x' ∨ x = 'X') := by
      intro hx
      have hname : isNameChar x = true ∧ isNumberChar x = false := by
        rcases hx with rfl | rfl <;> decide
      unfold Word.isDecimal at h
      split at h
      · rename_i d digits
        obtain ⟨_, hdigits⟩ := Bool.and_eq_true_iff.mp h
        cases digits with
        | nil =>
          cases heq
          simp [endsWord, (apart_of_isNameChar hname.1).1] at hrest
        | cons d' digits =>
          cases heq
          have hd := List.all_eq_true.mp hdigits _ List.mem_cons_self
          rw [hname.2] at hd
          cases hd
      · cases h
    rw [if_neg (by simpa using hx)]
  · rfl

theorem length_decimal (h : Word.isDecimal digits = true) (hrest : endsWord rest = true) :
    length before (digits ++ rest) = digits.length := by
  have hhex := hexNumber_decimal h hrest
  have hdigits := digitsFrom_decimal [] h hrest
  unfold Word.isDecimal at h
  split at h
  · rename_i d digits
    obtain ⟨hblank, hmark⟩ := apart_of_isDigit (Bool.and_eq_true_iff.mp h).1
    simp only [List.mem_cons, List.not_mem_nil, or_false, not_or] at hmark
    have hnumber : number (d :: digits ++ rest) = (d :: digits).length := by
      simpa [number, hmark] using hdigits
    rw [List.cons_append] at hhex hnumber ⊢
    simp [length, firstOf, blockComment, lineComment, blanks, hblank, hmark, hhex, hnumber]
  · cases h

end Decimal

def marks : List String := ["=", ";", ":", ",", "(", ")", "\x7b", "\x7d", "->"]

theorem length_mark {mark : String} (h : mark ∈ marks) :
    length before (mark.toList ++ rest) = mark.toList.length := by
  simp only [marks, List.mem_cons, List.not_mem_nil, or_false] at h
  rcases h with rfl | rfl | rfl | rfl | rfl | rfl | rfl | rfl | rfl <;> rfl

theorem endsWord_mark {mark : String} (h : mark ∈ marks) :
    endsWord (mark.toList ++ rest) = true ∧ mark.toList.getLast?.any isWordChar = false := by
  simp only [marks, List.mem_cons, List.not_mem_nil, or_false] at h
  rcases h with rfl | rfl | rfl | rfl | rfl | rfl | rfl | rfl | rfl <;> exact ⟨rfl, rfl⟩

theorem isSkipped_of_isBlank (hc : isBlank c = true) : isSkipped (c :: cs) = true := by
  unfold isSkipped
  split
  · rfl
  · rename_i heq
    cases heq
    exact hc
  · rename_i heq
    cases heq

theorem length_blank (hc : isBlank c = true) :
    length before (c :: cs) = (cs.takeWhile isBlank).length + 1 := by
  have hslash : c ≠ '/' := by
    rintro rfl
    exact absurd hc (by decide)
  simp [length, firstOf, blockComment, lineComment, blanks, hc, hslash]

end Lexeme

section Numerals
variable (n : Nat)

theorem toList_toString : (toString n).toList = Nat.toDigits 10 n := by
  rw [Nat.toString_eq_repr, Nat.toList_repr]

theorem isDigit_of_toString : ∀ c ∈ (toString n).toList, c.isDigit = true := by
  intro c hc
  rw [toList_toString] at hc
  exact Nat.isDigit_of_mem_toDigits (by omega) (by omega) hc

theorem not_mem_toString {c : Char} (hc : c.isDigit = false) : c ∉ (toString n).toList := by
  intro hmem
  rw [isDigit_of_toString n c hmem] at hc
  cases hc

theorem toString_ne_nil : (toString n).toList ≠ [] := by
  rw [toList_toString]
  exact Nat.toDigits_ne_nil

theorem Word.isNumeral_toString : Word.isNumeral (toString n) = true := by
  unfold isNumeral
  split
  · rename_i heq
    exact absurd (heq ▸ List.mem_cons_of_mem _ List.mem_cons_self) (not_mem_toString n rfl)
  · rename_i heq
    exact absurd (heq ▸ List.mem_cons_of_mem _ List.mem_cons_self) (not_mem_toString n rfl)
  · rename_i heq
    exact absurd (heq ▸ List.mem_cons_self) (not_mem_toString n rfl)
  · rename_i heq
    exact absurd (heq ▸ List.mem_cons_self) (not_mem_toString n rfl)
  · obtain ⟨c, cs, hchars⟩ := List.exists_cons_of_ne_nil (toString_ne_nil n)
    have hdigits := isDigit_of_toString n
    rw [hchars] at hdigits ⊢
    obtain ⟨hc, hcs⟩ := List.forall_mem_cons.mp hdigits
    have hfirst := (Lexeme.apart_of_isNameChar (Lexeme.isNameChar_of_isDigit hc)).2.2.1
    refine Bool.and_eq_true_iff.mpr ⟨hfirst.trans hc, List.all_eq_true.mpr fun d hd => ?_⟩
    simp [Lexeme.isNumberChar, hcs d hd]

end Numerals

namespace Lexes
open Text (isBlank isWordChar)
variable {before : Option Char} {rest : List Char} {text : String} {words : List String}

/-- A lexeme that starts with a character of names is a word. -/
theorem of_length {c : Char} {cs : List Char} (htext : text.toList = c :: cs)
    (hc : Lexeme.isNameChar c = true)
    (hlength : Lexeme.length before (text.toList ++ rest) = text.toList.length)
    (h : Lexes text.toList.getLast? rest words) :
    Lexes before (text.toList ++ rest) (text :: words) := by
  obtain ⟨_, hblank, _, hmark⟩ := Lexeme.apart_of_isNameChar hc
  simp only [List.mem_cons, List.not_mem_nil, or_false, not_or] at hmark
  have hskipped : Lexeme.isSkipped text.toList = false := by
    simp [htext, Lexeme.isSkipped, hblank, hmark]
  have hword := Lexes.word (by simp [htext]) hlength hskipped h
  rwa [String.ofList_toList] at hword

/-- A name apart from other words is one word. -/
theorem name (hname : Word.isName text = true) (hbefore : before.any isWordChar = false)
    (hrest : Lexeme.endsWord rest = true) (h : Lexes text.toList.getLast? rest words) :
    Lexes before (text.toList ++ rest) (text :: words) := by
  unfold Word.isName at hname
  split at hname
  · rename_i c cs htext
    obtain ⟨hstart, hcs⟩ := Bool.and_eq_true_iff.mp hname
    refine of_length htext (Lexeme.isNameChar_of_isNameStart hstart) ?_ h
    rw [htext]
    exact Lexeme.length_name hstart (List.all_eq_true.mp hcs) hbefore hrest
  · cases hname

/-- Digits apart from other words are one word. -/
theorem digits (hnonempty : text.toList ≠ []) (hdigits : ∀ d ∈ text.toList, d.isDigit = true)
    (hrest : Lexeme.endsWord rest = true) (h : Lexes text.toList.getLast? rest words) :
    Lexes before (text.toList ++ rest) (text :: words) := by
  obtain ⟨c, cs, htext⟩ := List.exists_cons_of_ne_nil hnonempty
  rw [htext] at hdigits
  obtain ⟨hc, hcs⟩ := List.forall_mem_cons.mp hdigits
  have hname := Lexeme.isNameChar_of_isDigit hc
  refine of_length htext hname (Lexeme.length_decimal ?_ hrest) h
  rw [htext, Word.isDecimal, (Lexeme.apart_of_isNameChar hname).2.2.1, hc, Bool.true_and]
  exact List.all_eq_true.mpr fun d hd => by simp [Lexeme.isNumberChar, hcs d hd]

/-- A mark is one word wherever it stands. -/
theorem mark (text : String) (hmark : text ∈ Lexeme.marks)
    (h : Lexes text.toList.getLast? rest words) :
    Lexes before (text.toList ++ rest) (text :: words) := by
  have hlexeme : text.toList ≠ [] ∧ Lexeme.isSkipped text.toList = false := by
    simp only [Lexeme.marks, List.mem_cons, List.not_mem_nil, or_false] at hmark
    rcases hmark with rfl | rfl | rfl | rfl | rfl | rfl | rfl | rfl | rfl <;> decide
  have hlength : Lexeme.length before (text.toList ++ rest) = text.toList.length :=
    Lexeme.length_mark hmark
  have hword := Lexes.word hlexeme.1 hlength hlexeme.2 h
  rwa [String.ofList_toList] at hword

/-- White space is passed. In a row it is one lexeme, so that a blank in front of others joins them. -/
theorem of_isBlank {c : Char} (hc : isBlank c = true) (h : Lexes (some c) rest words) :
    Lexes before (c :: rest) words := by
  have hsingle (hrest : rest.takeWhile isBlank = []) : Lexes before (c :: rest) words := by
    change Lexes before ([c] ++ rest) words
    refine .skipped (by simp) ?_ (Lexeme.isSkipped_of_isBlank hc) h
    rw [List.singleton_append, Lexeme.length_blank hc, hrest]
    rfl
  cases h with
  | nil => exact hsingle rfl
  | @word _ lexeme rest words hlexeme _ hword _ =>
    obtain ⟨d, ds, rfl⟩ := List.exists_cons_of_ne_nil hlexeme
    apply hsingle
    unfold Lexeme.isSkipped at hword
    split at hword <;> simp_all
  | @skipped _ lexeme rest words hlexeme hlength _ hrest =>
    obtain ⟨d, ds, rfl⟩ := List.exists_cons_of_ne_nil hlexeme
    cases hd : isBlank d with
    | false => exact hsingle (by simp [hd])
    | true =>
      rw [List.cons_append, Lexeme.length_blank hd, List.length_cons] at hlength
      change Lexes before ((c :: d :: ds) ++ rest) words
      refine .skipped (by simp) ?_ (Lexeme.isSkipped_of_isBlank hc) ?_
      · rw [List.cons_append, Lexeme.length_blank hc]
        simpa [hd] using hlength
      · rwa [List.getLast?_cons_cons]

theorem blank (h : Lexes (some ' ') rest words) : Lexes before (' ' :: rest) words :=
  of_isBlank rfl h

end Lexes
end Didl.Idl
