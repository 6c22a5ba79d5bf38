import Mathlib
import Didl.Decimal.Layout

namespace Didl.Decimal

def Dec.value (d : Dec) : ℚ := d.digits * (10 : ℚ) ^ d.exp

def pointValue (cs : List Char) : ℚ :=
  let whole := cs.takeWhile (· != '.')
  let fraction := (cs.dropWhile (· != '.')).drop 1
  Nat.ofDigitChars 10 (whole ++ fraction) 0 / (10 : ℚ) ^ fraction.length

/-- The number that digits stand for, which may have a point and an exponent with its sign. -/
def textValue (cs : List Char) : ℚ :=
  let mantissa := pointValue (cs.takeWhile (· != 'e'))
  match cs.dropWhile (· != 'e') with
  | _ :: '-' :: ds => mantissa * (10 : ℚ) ^ (-(Nat.ofDigitChars 10 ds 0 : ℤ))
  | _ :: _ :: ds => mantissa * (10 : ℚ) ^ (Nat.ofDigitChars 10 ds 0 : ℤ)
  | _ => mantissa

section Span
variable {stop : Char} {front back : List Char}

theorem takeWhile_stop (h : ∀ c ∈ front, c ≠ stop) :
    (front ++ stop :: back).takeWhile (· != stop) = front := by
  rw [List.takeWhile_append_of_pos (by simpa using h)]
  simp

theorem dropWhile_stop (h : ∀ c ∈ front, c ≠ stop) :
    (front ++ stop :: back).dropWhile (· != stop) = stop :: back := by
  rw [List.dropWhile_append_of_pos (by simpa using h)]
  simp

theorem takeWhile_all (h : ∀ c ∈ front, c ≠ stop) : front.takeWhile (· != stop) = front :=
  List.takeWhile_eq_self_iff.mpr (by simpa using h)

theorem dropWhile_all (h : ∀ c ∈ front, c ≠ stop) : front.dropWhile (· != stop) = [] :=
  List.dropWhile_eq_nil_iff.mpr (by simpa using h)

theorem pointValue_point (h : ∀ c ∈ front, c ≠ '.') : pointValue (front ++ '.' :: back) =
    Nat.ofDigitChars 10 (front ++ back) 0 / (10 : ℚ) ^ back.length := by
  simp only [pointValue, takeWhile_stop h, dropWhile_stop h, List.drop_succ_cons, List.drop_zero]

theorem pointValue_whole (h : ∀ c ∈ front, c ≠ '.') :
    pointValue front = Nat.ofDigitChars 10 front 0 := by
  simp [pointValue, takeWhile_all h, dropWhile_all h]

theorem textValue_plain (h : ∀ c ∈ front, c ≠ 'e') : textValue front = pointValue front := by
  simp [textValue, takeWhile_all h, dropWhile_all h]

end Span

theorem ne_of_isDigit {digits : List Char} (h : ∀ c ∈ digits, c.isDigit = true) (stop : Char)
    (hstop : stop.isDigit = false) : ∀ c ∈ digits, c ≠ stop := by
  rintro c hc rfl
  rw [h c hc] at hstop
  cases hstop

theorem isDigit_zeros (count : Nat) : ∀ c ∈ Layout.zeros count, c.isDigit = true := by
  intro c hc
  rw [List.eq_of_mem_replicate hc]
  rfl

section Digits
variable {front back digits : List Char}

/-- Digits with a point among them stand for all digits, scaled by the count of those behind it. -/
theorem pointValue_digits (hfront : ∀ c ∈ front, c.isDigit = true) :
    pointValue (front ++ '.' :: back) =
      Nat.ofDigitChars 10 (front ++ back) 0 * (10 : ℚ) ^ (-(back.length : ℤ)) := by
  rw [pointValue_point (ne_of_isDigit hfront '.' rfl), zpow_neg, zpow_natCast, div_eq_mul_inv]

theorem textValue_digits (hfront : ∀ c ∈ front, c.isDigit = true)
    (hback : ∀ c ∈ back, c.isDigit = true) : textValue (front ++ '.' :: back) =
      Nat.ofDigitChars 10 (front ++ back) 0 * (10 : ℚ) ^ (-(back.length : ℤ)) := by
  rw [textValue_plain ?_, pointValue_digits hfront]
  have hf := ne_of_isDigit hfront 'e' rfl
  have hb := ne_of_isDigit hback 'e' rfl
  simpa [or_imp, forall_and] using ⟨hf, hb⟩

variable (hdigits : ∀ c ∈ digits, c.isDigit = true)
include hdigits

/-- Digits in place, the leading one at exponent `top`, stand for themselves scaled to that
exponent. -/
theorem textValue_positional (style : Layout) (top : Int) :
    textValue (style.positional digits top) =
      Nat.ofDigitChars 10 digits 0 * (10 : ℚ) ^ (top + 1 - digits.length) := by
  have hpadded : ∀ count, ∀ c ∈ digits ++ Layout.zeros count, c.isDigit = true := fun count =>
    List.forall_mem_append.mpr ⟨hdigits, isDigit_zeros count⟩
  have hzeros : ∀ count init, Nat.ofDigitChars 10 (Layout.zeros count) init = 10 ^ count * init :=
    fun _ _ => Nat.ofDigitChars_replicate_zero
  unfold Layout.positional
  dsimp only
  split
  · -- All digits stand behind the point.
    have hzero : ∀ c ∈ ['0'], c.isDigit = true := List.forall_mem_singleton.mpr rfl
    rw [List.cons_append, List.cons_append]
    refine (textValue_digits hzero (List.forall_mem_append.mpr ⟨isDigit_zeros _, hdigits⟩)).trans ?_
    have hexp : (-(((Layout.zeros (-top - 1).toNat ++ digits).length : Nat) : ℤ)) =
        top + 1 - digits.length := by
      simp only [Layout.zeros, List.length_append, List.length_replicate]
      omega
    rw [hexp, List.singleton_append, Nat.ofDigitChars_cons, Nat.ofDigitChars_append, hzeros]
    simp
  · split
    · -- All digits stand in front of the point, if there is one.
      rename_i hneg hle
      obtain ⟨count, hcount⟩ : ∃ count, (top + 1).toNat - digits.length = count := ⟨_, rfl⟩
      have hexp : top + 1 - digits.length = count := by omega
      have hnumber : Nat.ofDigitChars 10 (digits ++ Layout.zeros count) 0 =
          10 ^ count * Nat.ofDigitChars 10 digits 0 := by rw [Nat.ofDigitChars_append, hzeros]
      rw [hcount, hexp, zpow_natCast]
      split
      · rw [textValue_digits (hpadded count) (by simp), Nat.ofDigitChars_append, hnumber]
        simp [Nat.ofDigitChars_cons]
        ring
      · rw [List.append_nil, textValue_plain (ne_of_isDigit (hpadded count) 'e' rfl),
          pointValue_whole (ne_of_isDigit (hpadded count) '.' rfl), hnumber]
        push_cast
        ring
    · rename_i hneg hlt
      rw [textValue_digits (fun c hc => hdigits c (List.mem_of_mem_take hc))
        (fun c hc => hdigits c (List.mem_of_mem_drop hc)), List.take_append_drop, List.length_drop]
      congr 2
      omega

/-- The first digit and those behind the point, where there are any. -/
theorem pointValue_mantissa (hne : digits ≠ []) :
    pointValue (digits.take 1 ++ if digits.length ≤ 1 then [] else '.' :: digits.drop 1) =
      Nat.ofDigitChars 10 digits 0 * (10 : ℚ) ^ (1 - digits.length : ℤ) := by
  have hlength := List.length_pos_iff.mpr hne
  split
  · have hone : digits.length = 1 := by omega
    rw [List.append_nil, List.take_of_length_le (by omega),
      pointValue_whole (ne_of_isDigit hdigits '.' rfl), hone]
    simp
  · rw [pointValue_digits (fun c hc => hdigits c (List.mem_of_mem_take hc)), List.take_append_drop,
      List.length_drop]
    congr 2
    omega

theorem textValue_scientific (hne : digits ≠ []) (top : Int) :
    textValue (Layout.scientific digits top) =
      Nat.ofDigitChars 10 digits 0 * (10 : ℚ) ^ (top + 1 - digits.length) := by
  have he : ∀ c ∈ digits.take 1 ++ (if digits.length ≤ 1 then [] else '.' :: digits.drop 1),
      c ≠ 'e' := by
    have hdigit := ne_of_isDigit hdigits 'e' rfl
    refine List.forall_mem_append.mpr ⟨fun c hc => hdigit c (List.mem_of_mem_take hc), ?_⟩
    split
    · exact nofun
    · exact List.forall_mem_cons.mpr ⟨by decide, fun c hc => hdigit c (List.mem_of_mem_drop hc)⟩
  have hnumber : Nat.ofDigitChars 10 (Nat.toDigits 10 top.natAbs) 0 = top.natAbs :=
    Nat.ofDigitChars_toDigits (by omega) (by omega)
  have hexp : top + 1 - digits.length = (1 - digits.length : ℤ) + top := by omega
  rw [Layout.scientific, textValue, takeWhile_stop he, dropWhile_stop he,
    pointValue_mantissa hdigits hne, hexp, zpow_add₀ (by norm_num), ← mul_assoc]
  by_cases hneg : top < 0
  · simp only [if_pos hneg, hnumber]
    congr 2
    omega
  · rw [if_neg hneg]
    change _ * (10 : ℚ) ^ (Nat.ofDigitChars 10 (Nat.toDigits 10 top.natAbs) 0 : ℤ) = _
    rw [hnumber]
    congr 2
    omega

end Digits

/-- A decimal is written as digits of its own, in place or with an exponent. -/
theorem exists_place (style : Layout) (d : Dec) : ∃ digits : List Char, ∃ top : Int,
    digits ≠ [] ∧ (∀ c ∈ digits, c.isDigit = true) ∧
      Nat.ofDigitChars 10 digits 0 * (10 : ℚ) ^ (top + 1 - digits.length) = d.value ∧
      (style.place d = style.positional digits top ∨ style.place d = Layout.scientific digits top) := by
  have hnumber : Nat.ofDigitChars 10 (Nat.toDigits 10 d.digits) 0 = d.digits :=
    Nat.ofDigitChars_toDigits (by omega) (by omega)
  refine ⟨Nat.toDigits 10 d.digits, d.exp + (Nat.toDigits 10 d.digits).length - 1,
    Nat.toDigits_ne_nil, fun c hc => Nat.isDigit_of_mem_toDigits (by omega) (by omega) hc, ?_, ?_⟩
  · rw [hnumber, Dec.value]
    congr 2
    omega
  · unfold Layout.place
    dsimp only
    split
    · split
      · exact .inl rfl
      · exact .inr rfl
    · exact .inl rfl

/-- What is written for a decimal stands for it. -/
theorem textValue_place (style : Layout) (d : Dec) : textValue (style.place d) = d.value := by
  obtain ⟨digits, top, hne, hdigits, hvalue, hplace | hplace⟩ := exists_place style d
  · rw [hplace, textValue_positional hdigits, hvalue]
  · rw [hplace, textValue_scientific hdigits hne, hvalue]

/-- A decimal is written with a digit in front. -/
theorem place_head (style : Layout) (d : Dec) :
    ∃ c cs, style.place d = c :: cs ∧ c.isDigit = true := by
  have hhead : ∀ {ds : List Char} (rest : List Char), ds ≠ [] → (∀ c ∈ ds, c.isDigit = true) →
      ∃ c cs, ds ++ rest = c :: cs ∧ c.isDigit = true := by
    intro ds rest hne hds
    obtain ⟨c, cs, rfl⟩ := List.exists_cons_of_ne_nil hne
    exact ⟨c, cs ++ rest, rfl, hds c List.mem_cons_self⟩
  obtain ⟨digits, top, hne, hdigits, _, hplace⟩ := exists_place style d
  have htake : ∀ count, 0 < count → ∀ rest, ∃ c cs,
      digits.take count ++ rest = c :: cs ∧ c.isDigit = true := fun count hcount rest =>
    hhead rest (by simpa [List.take_eq_nil_iff, hne] using hcount.ne')
      fun c hc => hdigits c (List.mem_of_mem_take hc)
  rcases hplace with hplace | hplace <;> rw [hplace]
  · unfold Layout.positional
    dsimp only
    split
    · exact ⟨'0', _, rfl, rfl⟩
    · split
      · rw [List.append_assoc]
        exact hhead _ hne hdigits
      · exact htake (top + 1).toNat (by omega) _
  · rw [Layout.scientific, List.append_assoc]
    exact htake 1 (by omega) _

def isNumberChar (c : Char) : Bool := c.isDigit || c == '-' || c == '+' || c == '.' || c == 'e'

/-- A decimal is written in characters of numbers. -/
theorem place_chars (style : Layout) (d : Dec) : ∀ c ∈ style.place d, isNumberChar c = true := by
  have hnumber : ∀ {cs : List Char}, (∀ c ∈ cs, c.isDigit = true) →
      ∀ c ∈ cs, isNumberChar c = true := by
    intro cs hcs c hc
    simp [isNumberChar, hcs c hc]
  obtain ⟨digits, top, _, hdigits, _, hplace⟩ := exists_place style d
  have hall := hnumber hdigits
  have htake : ∀ count, ∀ c ∈ digits.take count, isNumberChar c = true :=
    fun count c hc => hall c (List.mem_of_mem_take hc)
  have hdrop : ∀ count, ∀ c ∈ digits.drop count, isNumberChar c = true :=
    fun count c hc => hall c (List.mem_of_mem_drop hc)
  rcases hplace with hplace | hplace <;> rw [hplace]
  · unfold Layout.positional
    dsimp only
    split
    · refine List.forall_mem_cons.mpr ⟨rfl, List.forall_mem_cons.mpr ⟨rfl, ?_⟩⟩
      exact List.forall_mem_append.mpr ⟨hnumber (isDigit_zeros _), hall⟩
    · split
      · refine List.forall_mem_append.mpr ⟨List.forall_mem_append.mpr ⟨hall, ?_⟩, ?_⟩
        · exact hnumber (isDigit_zeros _)
        · split <;> simp [isNumberChar]
      · exact List.forall_mem_append.mpr ⟨htake _, List.forall_mem_cons.mpr ⟨rfl, hdrop _⟩⟩
  · have hpoint : ∀ c ∈ (if digits.length ≤ 1 then [] else '.' :: digits.drop 1),
        isNumberChar c = true := by
      split
      · exact nofun
      · exact List.forall_mem_cons.mpr ⟨rfl, hdrop 1⟩
    refine List.forall_mem_append.mpr ⟨List.forall_mem_append.mpr ⟨htake 1, hpoint⟩, ?_⟩
    refine List.forall_mem_cons.mpr ⟨rfl, List.forall_mem_cons.mpr ⟨?_, hnumber fun c hc =>
      Nat.isDigit_of_mem_toDigits (by omega) (by omega) hc⟩⟩
    split <;> rfl

/-- Where whole numbers end in `.0` every decimal has a point or an exponent. -/
theorem place_marked {style : Layout} (h : style.pointZero = true) (d : Dec) :
    '.' ∈ style.place d ∨ 'e' ∈ style.place d := by
  obtain ⟨digits, top, _, _, _, hplace | hplace⟩ := exists_place style d <;> rw [hplace]
  · left
    unfold Layout.positional
    dsimp only
    split
    · simp
    · split <;> simp
  · right
    simp [Layout.scientific]

end Didl.Decimal
