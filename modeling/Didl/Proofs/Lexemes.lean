import Didl.Proofs.Escaping
import Didl.Proofs.Lexing

namespace Didl.Idl

/-- What may stand between quotes: no quote and no backslash, but for a backslash that takes the next
character with it. -/
inductive Inside : List Char → Prop
  | nil : Inside []
  | plain {c : Char} {cs : List Char} : c ≠ '"' → c ≠ '\\' → Inside cs → Inside (c :: cs)
  | escape {c : Char} {cs : List Char} : c ≠ '\n' → Inside cs → Inside ('\\' :: c :: cs)

inductive IsToken : String → Prop
  | name {text : String} : Word.isName text = true → IsToken text
  | numeral {text : String} : Word.isNumeral text = true → IsToken text
  | quoted {cs : List Char} : Inside cs → IsToken (Escape.quoted cs)
  | mark {text : String} : text ∈ Lexeme.marks → IsToken text

/-- What may stand between the ends of a block comment, which is over where it can be. -/
def IsBlockBody (body : List Char) : Prop := ¬ ['*', '/'] <:+: body ++ ['*']

instance (body : List Char) : Decidable (IsBlockBody body) :=
  inferInstanceAs (Decidable (¬ ['*', '/'] <:+: body ++ ['*']))

inductive Gap : List Char → Prop
  | nil : Gap []
  | blank {c : Char} {rest : List Char} : Text.isBlank c = true → Gap rest → Gap (c :: rest)
  | block {body rest : List Char} : IsBlockBody body → Gap rest →
      Gap ('/' :: '*' :: (body ++ '*' :: '/' :: rest))
  | line {body rest : List Char} : '\n' ∉ body → Gap rest →
      Gap ('/' :: '/' :: (body ++ '\n' :: rest))

namespace Word
variable {digits : List Char}

theorem isNumeral_hex {x : Char} (hx : x = 'x' ∨ x = 'X') (hdigits : digits ≠ [])
    (hall : ∀ c ∈ digits, Lexeme.isHexChar c = true) :
    isNumeral (String.ofList ('0' :: x :: digits)) = true := by
  rcases hx with rfl | rfl <;> simpa [isNumeral, hdigits] using hall

theorem isNumeral_signed {sign : Char} (hsign : sign = '+' ∨ sign = '-')
    (hdigits : isDecimal digits = true) : isNumeral (String.ofList (sign :: digits)) = true := by
  rcases hsign with rfl | rfl <;> simpa [isNumeral] using hdigits

theorem isNumeral_decimal (hdigits : isDecimal digits = true) :
    isNumeral (String.ofList digits) = true := by
  unfold isNumeral
  rw [String.toList_ofList]
  split
  · exact absurd hdigits (by simp [isDecimal, Lexeme.isNumberChar])
  · exact absurd hdigits (by simp [isDecimal, Lexeme.isNumberChar])
  · rw [isDecimal, show Text.isDigit '+' = false by decide] at hdigits
    cases hdigits
  · rw [isDecimal, show Text.isDigit '-' = false by decide] at hdigits
    cases hdigits
  · exact hdigits

theorem isDecimal_run {d : Char} (hd : Text.isDigit d = true) (digits : List Char) :
    isDecimal (d :: digits.takeWhile Lexeme.isNumberChar) = true :=
  Bool.and_eq_true_iff.mpr ⟨hd, List.all_takeWhile⟩

end Word

namespace Lexeme
open Text (isBlank isDigit isWordChar)
variable {before : Option Char} {c : Char} {cs lexeme rest body : List Char} {count : Nat}

section Ends

theorem isBlockBody_cons : IsBlockBody (c :: body) ↔
    ¬ (c = '*' ∧ ['/'] <+: body ++ ['*']) ∧ IsBlockBody body := by
  rw [IsBlockBody, List.cons_append, List.infix_cons_iff, List.cons_prefix_cons, not_or, eq_comm]
  rfl

/-- A block comment ends in front of a star and a slash, unless they stand further ahead. -/
theorem slash_prefix_append : ['/'] <+: body ++ '*' :: '/' :: rest ↔ ['/'] <+: body ++ ['*'] := by
  cases body with
  | nil => simp
  | cons d body => simp

theorem blockEnd_of_isBlockBody (h : IsBlockBody body) :
    blockEnd count (body ++ '*' :: '/' :: rest) = count + body.length + 2 := by
  induction body generalizing count with
  | nil => rfl
  | cons c body ih =>
    obtain ⟨hfirst, hbody⟩ := isBlockBody_cons.mp h
    rw [List.cons_append]
    unfold blockEnd
    split
    · rename_i heq
      obtain ⟨hstar, hslash⟩ := List.cons.inj heq
      exact absurd ⟨hstar, slash_prefix_append.mp ⟨_, hslash.symm⟩⟩ hfirst
    · rename_i heq
      cases heq
      rw [ih hbody, List.length_cons]
      omega
    · rename_i heq
      cases heq

theorem isBlockBody_of_blockEnd (h : blockEnd count cs ≠ 0) :
    ∃ body rest, cs = body ++ '*' :: '/' :: rest ∧ IsBlockBody body ∧
      blockEnd count cs = count + body.length + 2 := by
  fun_induction blockEnd count cs with
  | case1 count rest => exact ⟨[], rest, rfl, by decide, rfl⟩
  | case2 count c cs hopen ih =>
    obtain ⟨body, rest, rfl, hbody, hlength⟩ := ih h
    refine ⟨c :: body, rest, rfl, isBlockBody_cons.mpr ⟨?_, hbody⟩, ?_⟩
    · rintro ⟨rfl, hslash⟩
      obtain ⟨more, hmore⟩ := slash_prefix_append.mpr hslash
      exact hopen _ rfl hmore.symm
    · rw [hlength, List.length_cons]
      omega
  | case3 => cases h rfl

theorem textEnd_of_inside (h : Inside cs) :
    textEnd count (cs ++ '"' :: rest) = count + cs.length + 1 := by
  induction h generalizing count with
  | nil => rfl
  | plain hquote hbackslash _ ih =>
    rw [List.cons_append, textEnd, ih, List.length_cons]
    · omega
    all_goals simp_all
  | escape hline _ ih =>
    rw [List.cons_append, List.cons_append, textEnd, ih, List.length_cons, List.length_cons]
    · omega
    all_goals simp_all

theorem inside_of_textEnd (h : textEnd count cs ≠ 0) :
    ∃ inside rest, cs = inside ++ '"' :: rest ∧ Inside inside ∧
      textEnd count cs = count + inside.length + 1 := by
  fun_induction textEnd count cs with
  | case1 count rest => exact ⟨[], rest, rfl, .nil, rfl⟩
  | case2 | case4 | case6 => cases h rfl
  | case3 count c cs hline ih =>
    obtain ⟨inside, rest, rfl, hinside, hlength⟩ := ih h
    refine ⟨'\\' :: c :: inside, rest, rfl, .escape (fun hc => ?_) hinside, ?_⟩
    · subst hc
      exact hline rfl
    · rw [hlength, List.length_cons, List.length_cons]
      omega
  | case5 count c cs hquote _ hescape hlast ih =>
    obtain ⟨inside, rest, rfl, hinside, hlength⟩ := ih h
    have hbackslash : c ≠ '\\' := by
      rintro rfl
      cases inside with
      | nil => exact hescape _ _ rfl rfl
      | cons d inside => exact hescape _ _ rfl rfl
    refine ⟨c :: inside, rest, rfl, .plain (fun hc => hquote hc) hbackslash hinside, ?_⟩
    rw [hlength, List.length_cons]
    omega

end Ends

/-- A lexeme with what follows it: a token, a run of white space or a comment. -/
inductive Kind : List Char → List Char → Prop
  | token {lexeme rest : List Char} : IsToken (String.ofList lexeme) → Kind lexeme rest
  | blanks {lexeme rest : List Char} : lexeme ≠ [] → (∀ c ∈ lexeme, isBlank c = true) →
      Kind lexeme rest
  | block {body rest : List Char} : IsBlockBody body → Kind ('/' :: '*' :: (body ++ ['*', '/'])) rest
  | line {body rest : List Char} : '\n' ∉ body → rest.head?.all (· == '\n') = true →
      Kind ('/' :: '/' :: body) rest

def Starts (cs : List Char) (count : Nat) : Prop :=
  ∃ lexeme rest, cs = lexeme ++ rest ∧ count = lexeme.length ∧ Kind lexeme rest

theorem starts_run {p : Char → Bool} (first : List Char)
    (h : Kind (first ++ cs.takeWhile p) (cs.dropWhile p)) :
    Starts (first ++ cs) (first.length + (cs.takeWhile p).length) :=
  ⟨_, _, by rw [List.append_assoc, List.takeWhile_append_dropWhile], by rw [List.length_append], h⟩

section Inversion
variable (hcount : count ≠ 0)
include hcount

theorem starts_blockComment (h : blockComment cs = count) : Starts cs count := by
  subst h
  unfold blockComment at hcount
  split at hcount
  · obtain ⟨body, rest, rfl, hbody, hlength⟩ := isBlockBody_of_blockEnd hcount
    refine ⟨_, rest, ?_, ?_, .block hbody⟩
    · simp
    · rw [blockComment, hlength]
      simp
      omega
  · cases hcount rfl

theorem starts_lineComment (h : lineComment cs = count) : Starts cs count := by
  subst h
  unfold lineComment at hcount
  split at hcount
  · rename_i cs
    have hrest : (cs.dropWhile (· != '\n')).head?.all (· == '\n') = true := by
      have hstop := List.head?_dropWhile_not (· != '\n') cs
      cases hhead : (cs.dropWhile (· != '\n')).head? <;> simp_all
    refine starts_run ['/', '/'] (.line (fun hline => ?_) hrest)
    simpa using List.mem_takeWhile_imp hline
  · cases hcount rfl

theorem starts_blanks (h : blanks cs = count) : Starts cs count := by
  subst h
  have hrun : Starts ([] ++ cs) ([].length + (cs.takeWhile isBlank).length) := starts_run []
    (.blanks (fun hnil => hcount (by simpa [blanks] using hnil)) fun c hc => List.mem_takeWhile_imp hc)
  simpa [blanks] using hrun

theorem upToWordEnd_eq {n : Nat} (h : upToWordEnd cs n = count) : count = n := by
  subst h
  unfold upToWordEnd at hcount ⊢
  split
  · rfl
  · rename_i hend
    rw [if_neg hend] at hcount
    cases hcount rfl

theorem starts_hexNumber (h : hexNumber cs = count) : Starts cs count := by
  unfold hexNumber at h
  split at h
  · rename_i x digits
    split at h
    · rename_i hx
      split at h
      · cases hcount h.symm
      · rename_i hdigits
        rw [upToWordEnd_eq hcount h]
        refine starts_run ['0', x] (.token (.numeral (Word.isNumeral_hex (by simpa using hx) ?_ ?_)))
        · intro hnil
          exact hdigits (List.length_eq_zero_iff.mpr hnil)
        · exact fun c hc => List.mem_takeWhile_imp hc
    · cases hcount h.symm
  · cases hcount h.symm

theorem starts_number (h : number cs = count) : Starts cs count := by
  unfold number at h
  split at h
  · rename_i c cs
    unfold digitsFrom at h
    by_cases hsign : (c == '+' || c == '-') = true
    · rw [if_pos hsign, List.drop_succ_cons, List.drop_zero] at h
      split at h
      · rename_i d digits
        split at h
        · rename_i hd
          rw [upToWordEnd_eq hcount h]
          exact starts_run [c, d] (.token (.numeral
            (Word.isNumeral_signed (by simpa using hsign) (Word.isDecimal_run hd digits))))
        · cases hcount h.symm
      · cases hcount h.symm
    · rw [if_neg hsign, List.drop_zero] at h
      dsimp only at h
      split at h
      · rename_i hd
        rw [upToWordEnd_eq hcount h]
        exact starts_run [c] (.token (.numeral (Word.isNumeral_decimal (Word.isDecimal_run hd cs))))
      · cases hcount h.symm
  · cases hcount h.symm

theorem starts_quoted (h : quoted cs = count) : Starts cs count := by
  subst h
  unfold quoted at hcount
  split at hcount
  · obtain ⟨inside, rest, rfl, hinside, hlength⟩ := inside_of_textEnd hcount
    refine ⟨'"' :: (inside ++ ['"']), rest, ?_, ?_, .token (.quoted hinside)⟩
    · simp
    · rw [quoted, hlength]
      simp
      omega
  · cases hcount rfl

theorem starts_arrow (h : arrow cs = count) : Starts cs count := by
  unfold arrow at h
  split at h
  · exact ⟨['-', '>'], _, rfl, h.symm, .token (.mark (by decide))⟩
  · cases hcount h.symm

theorem starts_punctuation (h : punctuation cs = count) : Starts cs count := by
  unfold punctuation at h
  split at h
  · rename_i c rest
    split at h
    · rename_i hmark
      refine ⟨[c], rest, rfl, h.symm, .token (.mark ?_)⟩
      rw [List.contains_iff_mem] at hmark
      simp only [List.mem_cons, List.not_mem_nil, or_false] at hmark
      rcases hmark with rfl | rfl | rfl | rfl | rfl | rfl | rfl | rfl <;> decide
    · cases hcount h.symm
  · cases hcount h.symm

theorem starts_name (h : name before cs = count) : Starts cs count := by
  unfold name at h
  split at h
  · rename_i c rest
    split at h
    · rename_i hstart
      rw [upToWordEnd_eq hcount h]
      refine starts_run [c] (.token (.name ?_))
      rw [Word.isName, String.toList_ofList]
      exact Bool.and_eq_true_iff.mpr ⟨(Bool.and_eq_true_iff.mp hstart).1, List.all_takeWhile⟩
    · cases hcount h.symm
  · cases hcount h.symm

end Inversion

/-- What the scanner finds is a lexeme. -/
theorem starts_length (h : length before cs ≠ 0) : Starts cs (length before cs) := by
  have hmem : length before cs ∈ [blockComment cs, lineComment cs, blanks cs, hexNumber cs, number cs,
      quoted cs, arrow cs, punctuation cs, name before cs] := by
    unfold length firstOf at h ⊢
    cases hfound : List.find? (· != 0) [blockComment cs, lineComment cs, blanks cs, hexNumber cs,
        number cs, quoted cs, arrow cs, punctuation cs, name before cs] with
    | none => simp [hfound] at h
    | some n => exact List.mem_of_find?_eq_some hfound
  simp only [List.mem_cons, List.not_mem_nil, or_false] at hmem
  rcases hmem with hkind | hkind | hkind | hkind | hkind | hkind | hkind | hkind | hkind
  · exact starts_blockComment h hkind.symm
  · exact starts_lineComment h hkind.symm
  · exact starts_blanks h hkind.symm
  · exact starts_hexNumber h hkind.symm
  · exact starts_number h hkind.symm
  · exact starts_quoted h hkind.symm
  · exact starts_arrow h hkind.symm
  · exact starts_punctuation h hkind.symm
  · exact starts_name h hkind.symm

section Finding

theorem isNameChar_of_isHexChar (h : isHexChar c = true) : isNameChar c = true := by
  simp only [isHexChar, Char.isDigit, Bool.or_eq_true, Bool.and_eq_true, decide_eq_true_eq,
    beq_iff_eq, Char.le_def, UInt32.le_iff_toNat_le, ge_iff_le] at h
  simp only [isNameChar, Char.isAlphanum, Char.isAlpha, Char.isUpper, Char.isLower, Char.isDigit,
    Bool.or_eq_true, Bool.and_eq_true, decide_eq_true_eq, beq_iff_eq, UInt32.le_iff_toNat_le,
    ge_iff_le]
  change (((48 ≤ c.toNat ∧ c.toNat ≤ 57) ∨ (97 ≤ c.toNat ∧ c.toNat ≤ 102)) ∨
    (65 ≤ c.toNat ∧ c.toNat ≤ 70)) ∨ c = '_' at h
  change (((65 ≤ c.toNat ∧ c.toNat ≤ 90) ∨ (97 ≤ c.toNat ∧ c.toNat ≤ 122)) ∨
    (48 ≤ c.toNat ∧ c.toNat ≤ 57)) ∨ c = '_'
  rcases h with h | h
  · exact .inl (by omega)
  · exact .inr h

theorem length_signed {sign : Char} {digits : List Char} (hsign : sign = '+' ∨ sign = '-')
    (h : Word.isDecimal digits = true) (hrest : endsWord rest = true) :
    length before (sign :: digits ++ rest) = digits.length + 1 := by
  have hdigits := digitsFrom_decimal [sign] h hrest
  rw [List.length_singleton, Nat.add_comm, List.singleton_append] at hdigits
  have hblank : isBlank sign = false := by rcases hsign with rfl | rfl <;> decide
  rcases hsign with rfl | rfl <;>
    simp [length, firstOf, blockComment, lineComment, blanks, hblank, hexNumber, number, hdigits]

theorem length_hex {x : Char} {digits : List Char} (hx : x = 'x' ∨ x = 'X') (hdigits : digits ≠ [])
    (hall : ∀ c ∈ digits, isHexChar c = true) (hrest : endsWord rest = true) :
    length before ('0' :: x :: digits ++ rest) = digits.length + 2 := by
  have hrun : (digits ++ rest).takeWhile isHexChar = digits :=
    takeWhile_word (fun _ => isNameChar_of_isHexChar) hall hrest
  have hhex : hexNumber ('0' :: x :: (digits ++ rest)) = digits.length + 2 := by
    have hdrop : ('0' :: x :: (digits ++ rest)).drop (2 + digits.length) = rest := by
      rw [Nat.add_comm, List.drop_succ_cons, List.drop_succ_cons, List.drop_left]
    rw [hexNumber, if_pos (by simpa using hx), hrun]
    split
    · rename_i hnone
      exact absurd (List.length_eq_zero_iff.mp hnone) hdigits
    · rw [upToWordEnd, hdrop, if_pos hrest, Nat.add_comm]
  have hblank : isBlank '0' = false := by decide
  simp [length, firstOf, blockComment, lineComment, blanks, hblank, hhex]

theorem length_numeral {text : String} (h : Word.isNumeral text = true) (hrest : endsWord rest = true) :
    length before (text.toList ++ rest) = text.toList.length := by
  unfold Word.isNumeral at h
  split at h
  · rename_i heq
    obtain ⟨hdigits, hall⟩ := Bool.and_eq_true_iff.mp h
    rw [heq]
    exact length_hex (.inl rfl) (by simpa using hdigits) (List.all_eq_true.mp hall) hrest
  · rename_i heq
    obtain ⟨hdigits, hall⟩ := Bool.and_eq_true_iff.mp h
    rw [heq]
    exact length_hex (.inr rfl) (by simpa using hdigits) (List.all_eq_true.mp hall) hrest
  · rename_i heq
    rw [heq]
    exact length_signed (.inl rfl) h hrest
  · rename_i heq
    rw [heq]
    exact length_signed (.inr rfl) h hrest
  · exact length_decimal h hrest

theorem length_quoted {inside : List Char} (h : Inside inside) :
    length before ('"' :: (inside ++ ['"']) ++ rest) = inside.length + 2 := by
  have hquoted : quoted ('"' :: (inside ++ '"' :: rest)) = inside.length + 2 := by
    rw [quoted, textEnd_of_inside h]
    omega
  have hblank : isBlank '"' = false := by decide
  have hdigit : isDigit '"' = false := by decide
  simp [length, firstOf, blockComment, lineComment, blanks, hblank, hexNumber, number, digitsFrom,
    hdigit, hquoted]

end Finding
end Lexeme

namespace IsToken
open Lexeme (endsWord length)
open Text (isBlank isWordChar)
variable {text : String}

/-- No token starts as white space or a comment does. -/
theorem exists_cons (h : IsToken text) :
    ∃ c cs, text.toList = c :: cs ∧ isBlank c = false ∧ c ≠ '/' := by
  cases h with
  | name hname =>
    obtain ⟨c, cs, heq, hstart⟩ := Word.exists_of_isName hname
    obtain ⟨_, hblank, _, hmark⟩ :=
      Lexeme.apart_of_isNameChar (Lexeme.isNameChar_of_isNameStart hstart)
    exact ⟨c, cs, heq, hblank, fun hc => hmark (hc ▸ List.mem_cons_self)⟩
  | numeral hnumeral =>
    obtain ⟨c, cs, heq, rfl | rfl | hdigit⟩ := Word.exists_of_isNumeral hnumeral
    · exact ⟨_, cs, heq, by decide, by decide⟩
    · exact ⟨_, cs, heq, by decide, by decide⟩
    · obtain ⟨hblank, hmark⟩ := Lexeme.apart_of_isDigit hdigit
      exact ⟨c, cs, heq, hblank, fun hc => hmark (hc ▸ List.mem_cons_self)⟩
  | quoted => exact ⟨'"', _, by rw [Escape.quoted, String.toList_ofList], by decide, by decide⟩
  | mark hmark =>
    simp only [Lexeme.marks, List.mem_cons, List.not_mem_nil, or_false] at hmark
    rcases hmark with rfl | rfl | rfl | rfl | rfl | rfl | rfl | rfl | rfl <;>
      exact ⟨_, _, rfl, by decide, by decide⟩

theorem toList_ne_nil (h : IsToken text) : text.toList ≠ [] := by
  obtain ⟨c, cs, heq, _⟩ := h.exists_cons
  rw [heq]
  exact List.cons_ne_nil c cs

theorem ne_empty (h : IsToken text) : text ≠ "" := fun hempty =>
  h.toList_ne_nil (congrArg String.toList hempty)

theorem isSkipped_eq (h : IsToken text) : Lexeme.isSkipped text.toList = false := by
  obtain ⟨c, cs, heq, hblank, hslash⟩ := h.exists_cons
  simp [heq, Lexeme.isSkipped, hblank]

/-- A token is found where no word goes on in front of it or behind it. -/
theorem length_eq {before : Option Char} {rest : List Char} (h : IsToken text)
    (hbefore : before.any isWordChar = false) (hrest : endsWord rest = true) :
    length before (text.toList ++ rest) = text.toList.length := by
  cases h with
  | name hname =>
    unfold Word.isName at hname
    split at hname
    · rename_i c cs heq
      obtain ⟨hstart, hcs⟩ := Bool.and_eq_true_iff.mp hname
      rw [heq]
      exact Lexeme.length_name hstart (List.all_eq_true.mp hcs) hbefore hrest
    · cases hname
  | numeral hnumeral => exact Lexeme.length_numeral hnumeral hrest
  | quoted hinside =>
    rw [Escape.quoted, String.toList_ofList, Lexeme.length_quoted hinside]
    simp
  | mark hmark => exact Lexeme.length_mark hmark

end IsToken
end Didl.Idl
