import Didl.Proofs.Decimals

namespace Didl.Decimal

/-- A number on two scales: both sides are multiplied to whole numbers. -/
theorem scaled_eq (b : ℚ) (hb : b ≠ 0) (k : Int) : b ^ k * b ^ (-k).toNat = b ^ k.toNat := by
  rw [← zpow_natCast, ← zpow_natCast, ← zpow_add₀ hb]
  congr 1
  omega

/-- Decimals and binary numbers are compared exactly. -/
theorem compareScaled_eq (a : Nat) (i : Int) (n : Nat) (j : Int) :
    compareScaled a i n j = compare ((a : ℚ) * 10 ^ i) (n * 2 ^ j) := by
  have hpos : (0 : ℚ) < 10 ^ (-i).toNat * 2 ^ (-j).toNat := by positivity
  have hleft : (a : ℚ) * 10 ^ i * (10 ^ (-i).toNat * 2 ^ (-j).toNat) =
      (a * Nat.pow 10 i.toNat * Nat.pow 2 (-j).toNat : Nat) := by
    push_cast [Nat.pow_eq]
    rw [← scaled_eq 10 (by norm_num) i]
    ring
  have hright : (n : ℚ) * 2 ^ j * (10 ^ (-i).toNat * 2 ^ (-j).toNat) =
      (n * Nat.pow 2 j.toNat * Nat.pow 10 (-i).toNat : Nat) := by
    push_cast [Nat.pow_eq]
    rw [← scaled_eq 2 (by norm_num) j]
    ring
  rw [compareScaled, ← cmp_eq_compare, ← cmp_eq_compare,
    ← (Nat.strictMono_cast (α := ℚ)).cmp_map_eq, ← hleft, ← hright]
  exact (strictMono_mul_right_of_pos hpos).cmp_map_eq _ _

namespace Binary
variable {x : Binary} {d : Dec} {v : ℚ}

def value (x : Binary) : ℚ := x.m * (2 : ℚ) ^ x.q

def low (x : Binary) : ℚ :=
  (4 * x.m - (if x.narrowBelow then 1 else 2) : Nat) * (2 : ℚ) ^ (x.q - 2)

def high (x : Binary) : ℚ := (4 * x.m + 2 : Nat) * (2 : ℚ) ^ (x.q - 2)

theorem low_lt_high (x : Binary) : x.low < x.high := by
  unfold low high
  gcongr
  split <;> omega

/-- A real that rounds to a binary number, ties to the even one. -/
structure Rounds (x : Binary) (v : ℚ) : Prop where
  low : x.low ≤ v
  high : v ≤ x.high
  even : v = x.low ∨ v = x.high → x.m % 2 = 0

theorem readsBack_iff : x.readsBack d = true ↔ x.Rounds d.value := by
  have hlow : compareScaled d.digits d.exp (4 * x.m - (if x.narrowBelow then 1 else 2)) (x.q - 2) =
      compare d.value x.low := compareScaled_eq _ _ _ _
  have hhigh : compareScaled d.digits d.exp (4 * x.m + 2) (x.q - 2) = compare d.value x.high :=
    compareScaled_eq _ _ _ _
  have hlt := x.low_lt_high
  have hiff : ∀ even : Bool,
      ((compare d.value x.low == .gt || (even && compare d.value x.low == .eq)) &&
        (compare d.value x.high == .lt || (even && compare d.value x.high == .eq))) = true ↔
      x.low ≤ d.value ∧ d.value ≤ x.high ∧ (d.value = x.low ∨ d.value = x.high → even = true) := by
    intro even
    simp only [Bool.and_eq_true, Bool.or_eq_true, beq_iff_eq, compare_gt_iff_gt, compare_eq_iff_eq,
      compare_lt_iff_lt]
    grind
  simp only [readsBack, hlow, hhigh]
  rw [hiff, beq_iff_eq]
  exact ⟨fun ⟨h, h', h''⟩ => ⟨h, h', h''⟩, fun ⟨h, h', h''⟩ => ⟨h, h', h''⟩⟩

/-- Both candidates on a grid are tried before one is taken. -/
theorem rounds_of_onGrid? {tie : Tie} {i : Int} (h : x.onGrid? tie i = some d) :
    x.Rounds d.value := by
  rw [← readsBack_iff]
  unfold onGrid? at h
  dsimp only at h
  split at h
  · cases h
    assumption
  · cases h
    assumption
  · cases h
  · split at h
    · cases h
      assumption
    · cases h
      assumption
    · cases h
      assumption
    · split at h <;> cases h <;> assumption

theorem rounds_of_search {tie : Tie} {k : Int} {fuel n : Nat} (h : x.search tie k fuel n = some d) :
    x.Rounds d.value := by
  induction fuel generalizing n with
  | zero => cases h
  | succ fuel ih =>
    rw [search] at h
    split at h
    · cases h
      exact rounds_of_onGrid? ‹_›
    · exact ih h

theorem value_trim (fuel : Nat) (d : Dec) : (d.trim fuel).value = d.value := by
  induction fuel generalizing d with
  | zero => rfl
  | succ fuel ih =>
    rw [Dec.trim]
    split
    · rename_i h
      have hten : d.digits % 10 = 0 := by simp_all
      have hdigits : (d.digits : ℚ) = (d.digits / 10 : Nat) * 10 := by
        exact_mod_cast (Nat.div_mul_cancel (Nat.dvd_of_mod_eq_zero hten)).symm
      rw [ih, Dec.value, Dec.value, hdigits, zpow_add_one₀ (by norm_num)]
      ring
    · rfl

theorem value_eq (x : Binary) : x.value = (4 * x.m : Nat) * (2 : ℚ) ^ (x.q - 2) := by
  rw [value, zpow_sub₀ (by norm_num)]
  push_cast
  ring

theorem rounds_value (hm : 0 < x.m) : x.Rounds x.value := by
  have hlow : x.low < x.value := by
    rw [value_eq, low]
    gcongr
    split <;> omega
  have hhigh : x.value < x.high := by
    rw [value_eq, high]
    gcongr
    omega
  refine ⟨hlow.le, hhigh.le, ?_⟩
  rintro (h | h)
  · exact absurd h hlow.ne'
  · exact absurd h hhigh.ne

/-- A binary number written out in decimal. -/
theorem value_exact (x : Binary) :
    Dec.value ⟨x.m * Nat.pow 2 x.q.toNat * Nat.pow 5 (-x.q).toNat, min 0 x.q⟩ = x.value := by
  rw [Dec.value, value]
  push_cast [Nat.pow_eq]
  rcases le_total 0 x.q with hq | hq
  · obtain ⟨n, hn⟩ := Int.eq_ofNat_of_zero_le hq
    simp [hn]
  · obtain ⟨n, hn⟩ := Int.eq_ofNat_of_zero_le (Int.neg_nonneg.mpr hq)
    have hqn : x.q = -(n : ℤ) := by omega
    have hten : (10 : ℚ) ^ n = 5 ^ n * 2 ^ n := by rw [← mul_pow]; norm_num
    simp only [hqn, neg_neg, Int.toNat_natCast, Int.toNat_neg_natCast, pow_zero, mul_one,
      min_eq_right (by omega : -(n : ℤ) ≤ 0), zpow_neg, zpow_natCast, hten]
    field_simp

/-- The shortest decimal of a number is read back as the number. -/
theorem rounds_shortest (hm : 0 < x.m) (tie : Tie) : x.Rounds (x.shortest tie).value := by
  rw [shortest, value_trim]
  cases hfound : x.search tie x.scale 17 1 with
  | some d => exact rounds_of_search hfound
  | none =>
    rw [Option.getD_none, value_exact]
    exact rounds_value hm

end Binary

namespace Format
variable {f : Format} {n : Nat}

def least (f : Format) : Int := 2 - Nat.pow 2 (f.exponentBits - 1) - f.fractionBits

def Finite (f : Format) (bits : Nat) : Prop := f.isNaN bits = false ∧ f.isInfinite bits = false

theorem finite_iff {bits : Nat} : f.Finite bits ↔ f.exponent bits ≠ f.maxExponent := by
  simp only [Finite, isNaN, isInfinite, Bool.and_eq_false_imp, beq_iff_eq, bne_eq_false_iff_eq,
    beq_eq_false_iff_ne]
  grind

/-- Bits without a sign are an exponent and a fraction. -/
theorem exists_parts (h : n < 2 ^ (f.fractionBits + f.exponentBits)) :
    ∃ e fraction, e < 2 ^ f.exponentBits ∧ fraction < 2 ^ f.fractionBits ∧
      n = 2 ^ f.fractionBits * e + fraction := by
  refine ⟨n / 2 ^ f.fractionBits, n % 2 ^ f.fractionBits, ?_, Nat.mod_lt _ (by positivity),
    (Nat.div_add_mod n _).symm⟩
  rw [pow_add] at h
  exact Nat.div_lt_of_lt_mul h

section Parts
variable {e fraction : Nat} (he : e < 2 ^ f.exponentBits) (hfraction : fraction < 2 ^ f.fractionBits)
include hfraction

theorem fraction_eq : f.fraction (2 ^ f.fractionBits * e + fraction) = fraction := by
  rw [Format.fraction, Nat.pow_eq, Nat.mul_add_mod, Nat.mod_eq_of_lt hfraction]

include he

theorem exponent_eq : f.exponent (2 ^ f.fractionBits * e + fraction) = e := by
  rw [exponent, Nat.pow_eq, Nat.pow_eq, Nat.mul_add_div (by positivity),
    Nat.div_eq_of_lt hfraction, Nat.add_zero, Nat.mod_eq_of_lt he]

theorem isZero_eq :
    f.isZero (2 ^ f.fractionBits * e + fraction) = true ↔ e = 0 ∧ fraction = 0 := by
  simp only [isZero, exponent_eq he hfraction, fraction_eq hfraction, Bool.and_eq_true, beq_iff_eq]

theorem magnitude_eq : f.magnitude (2 ^ f.fractionBits * e + fraction) =
    if e = 0 then ⟨fraction, f.least, false⟩
    else ⟨2 ^ f.fractionBits + fraction, f.least + (e - 1), fraction == 0 && decide (1 < e)⟩ := by
  simp only [magnitude, exponent_eq he hfraction, fraction_eq hfraction, least, beq_iff_eq, Nat.pow_eq]

end Parts

/-- The numbers of a format follow each other without a gap, and even ones alternate with odd
ones. -/
theorem high_eq_low (hf : 0 < f.fractionBits) (h : n + 1 < 2 ^ (f.fractionBits + f.exponentBits)) :
    (f.magnitude n).high = (f.magnitude (n + 1)).low ∧
      ((f.magnitude n).m % 2 = 0 ↔ (f.magnitude (n + 1)).m % 2 = 1) := by
  obtain ⟨e, fraction, he, hfraction, rfl⟩ := exists_parts (Nat.lt_of_succ_lt h)
  obtain ⟨half, hhalf⟩ : ∃ half, 2 ^ f.fractionBits = 2 * half :=
    ⟨2 ^ (f.fractionBits - 1), by rw [← pow_succ']; congr 1; omega⟩
  rw [magnitude_eq he hfraction]
  by_cases hlast : fraction + 1 < 2 ^ f.fractionBits
  · -- The next number has the same exponent.
    rw [Nat.add_assoc, magnitude_eq he hlast]
    split
    · refine ⟨?_, by simp only; omega⟩
      simp only [Binary.high, Binary.low, Bool.false_eq_true, if_false]
      congr 2
    · refine ⟨?_, by simp only; omega⟩
      have hnarrow : (fraction + 1 == 0 && decide (1 < e)) = false := by simp
      simp only [Binary.high, Binary.low, hnarrow, Bool.false_eq_true, if_false]
      congr 2
  · -- The next number is the first one of the next exponent.
    have hnext : 2 ^ f.fractionBits * e + fraction + 1 = 2 ^ f.fractionBits * (e + 1) + 0 := by
      rw [Nat.mul_add, Nat.mul_one]
      omega
    have he' : 2 ^ f.fractionBits * (e + 1) < 2 ^ f.fractionBits * 2 ^ f.exponentBits := by
      rw [← pow_add]
      omega
    rw [hnext, magnitude_eq (Nat.lt_of_mul_lt_mul_left he') (by positivity),
      if_neg (Nat.succ_ne_zero e)]
    split
    · rename_i hzero
      refine ⟨?_, by simp only; omega⟩
      have hnarrow : (0 == 0 && decide (1 < e + 1)) = false := by simp [hzero]
      simp only [Binary.high, Binary.low, hnarrow, Bool.false_eq_true, if_false]
      congr 2
      · omega
      · omega
    · rename_i hpos
      refine ⟨?_, by simp only; omega⟩
      have hnarrow : (0 == 0 && decide (1 < e + 1)) = true := by simp; omega
      simp only [Binary.high, Binary.low, hnarrow, if_true]
      have hexp : f.least + ((e + 1 : Nat) - 1) - 2 = f.least + (e - 1) - 2 + 1 := by
        push_cast
        ring
      have hdigits : 4 * (2 ^ f.fractionBits + fraction) + 2 =
          (4 * (2 ^ f.fractionBits + 0) - 1) * 2 := by omega
      rw [hexp, zpow_add_one₀ (by norm_num), hdigits]
      push_cast
      ring

theorem high_le_low (hf : 0 < f.fractionBits) {n' : Nat} (hlt : n < n')
    (h : n' < 2 ^ (f.fractionBits + f.exponentBits)) :
    (f.magnitude n).high ≤ (f.magnitude n').low ∧
      ((f.magnitude n).high = (f.magnitude n').low → n' = n + 1) := by
  induction n', hlt using Nat.le_induction with
  | base => exact ⟨(high_eq_low hf h).1.le, fun _ => rfl⟩
  | succ n' hlt ih =>
    obtain ⟨hle, _⟩ := ih (Nat.lt_of_succ_lt h)
    have hstrict : (f.magnitude n).high < (f.magnitude (n' + 1)).low :=
      (high_eq_low hf h).1 ▸ hle.trans_lt (Binary.low_lt_high _)
    exact ⟨hstrict.le, fun heq => absurd heq hstrict.ne⟩

/-- No real rounds to two numbers of a format. -/
theorem rounds_unique (hf : 0 < f.fractionBits) {n n' : Nat} {v : ℚ}
    (hn : n < 2 ^ (f.fractionBits + f.exponentBits))
    (hn' : n' < 2 ^ (f.fractionBits + f.exponentBits)) (hv : (f.magnitude n).Rounds v)
    (hv' : (f.magnitude n').Rounds v) : n = n' := by
  have hnot : ∀ {a b : Nat}, a < b → b < 2 ^ (f.fractionBits + f.exponentBits) →
      (f.magnitude a).Rounds v → ¬ (f.magnitude b).Rounds v := by
    intro a b hlt hb ha hb'
    obtain ⟨hle, hnext⟩ := high_le_low hf hlt hb
    -- A real between both has to be the midpoint, which only one of two neighbours takes.
    have hhigh : v = (f.magnitude a).high := le_antisymm ha.high (hle.trans hb'.low)
    have hlow : v = (f.magnitude b).low := le_antisymm (ha.high.trans hle) hb'.low
    obtain rfl := hnext (hhigh.symm.trans hlow)
    have hodd := (high_eq_low hf hb).2.mp (ha.even (.inr hhigh))
    rw [hb'.even (.inl hlow)] at hodd
    cases hodd
  rcases lt_trichotomy n n' with hlt | heq | hgt
  · exact absurd hv' (hnot hlt hn' hv)
  · exact heq
  · exact absurd hv (hnot hgt hn hv')

/-- The number of finite bits without their sign. -/
theorem magnitude_mod (f : Format) (bits : Nat) :
    f.magnitude (bits % 2 ^ (f.fractionBits + f.exponentBits)) = f.magnitude bits ∧
      f.isZero (bits % 2 ^ (f.fractionBits + f.exponentBits)) = f.isZero bits := by
  have hfraction : f.fraction (bits % 2 ^ (f.fractionBits + f.exponentBits)) = f.fraction bits := by
    rw [fraction, fraction, Nat.pow_eq, Nat.mod_mod_of_dvd _ (pow_dvd_pow 2 (Nat.le_add_right _ _))]
  have hexponent : f.exponent (bits % 2 ^ (f.fractionBits + f.exponentBits)) = f.exponent bits := by
    rw [exponent, exponent, Nat.pow_eq, Nat.pow_eq, pow_add, Nat.mod_mul_right_div_self,
      Nat.mod_mod]
  simp only [magnitude, isZero, hfraction, hexponent, and_self]

/-- A number of a format that is not zero is positive, and zero does not round to it. -/
theorem magnitude_pos (h : n < 2 ^ (f.fractionBits + f.exponentBits)) (hn : f.isZero n = false) :
    0 < (f.magnitude n).m ∧ ∀ v, (f.magnitude n).Rounds v → 0 < v := by
  obtain ⟨e, fraction, he, hfraction, rfl⟩ := exists_parts h
  have hzero := isZero_eq he hfraction
  rw [hn] at hzero
  have hpos : 0 < (f.magnitude (2 ^ f.fractionBits * e + fraction)).m := by
    rw [magnitude_eq he hfraction]
    split
    · simp only
      grind
    · positivity
  refine ⟨hpos, fun v hv => lt_of_lt_of_le ?_ hv.low⟩
  unfold Binary.low
  have hdigits : 0 < 4 * (f.magnitude (2 ^ f.fractionBits * e + fraction)).m -
      (if (f.magnitude (2 ^ f.fractionBits * e + fraction)).narrowBelow then 1 else 2) := by
    split <;> omega
  positivity

end Format

namespace Layout

def decimal (style : Layout) (f : Format) (bits : Nat) : Dec :=
  if f.isZero bits then ⟨0, 0⟩ else (f.magnitude bits).shortest style.tie

variable {f : Format} {bits : Nat}

theorem toList_write (style : Layout) (h : f.Finite bits) :
    (style.write f bits).toList =
      (if f.negative bits then ['-'] else []) ++ style.place (style.decimal f bits) := by
  unfold write decimal
  rw [h.1, h.2]
  cases f.negative bits <;> cases f.isZero bits <;> simp

/-- The decimal of a finite number tells it, up to its sign. -/
theorem decimal_injective (style : Layout) (hf : 0 < f.fractionBits) {a b : Nat}
    (h : (style.decimal f a).value = (style.decimal f b).value) :
    a % 2 ^ (f.fractionBits + f.exponentBits) = b % 2 ^ (f.fractionBits + f.exponentBits) := by
  have hlt : ∀ n, n % 2 ^ (f.fractionBits + f.exponentBits) <
      2 ^ (f.fractionBits + f.exponentBits) := fun n => Nat.mod_lt _ (by positivity)
  have hrounds : ∀ n, f.isZero n = false →
      (f.magnitude n).Rounds (style.decimal f n).value ∧ 0 < (style.decimal f n).value := by
    intro n hn
    obtain ⟨hmagnitude, hzero⟩ := Format.magnitude_mod f n
    obtain ⟨hm, hpos⟩ := Format.magnitude_pos (hlt n) (hzero.trans hn)
    rw [hmagnitude] at hm hpos
    have hr : (f.magnitude n).Rounds (style.decimal f n).value := by
      rw [decimal, hn, if_neg Bool.false_ne_true]
      exact Binary.rounds_shortest hm style.tie
    exact ⟨hr, hpos _ hr⟩
  have hvalue : ∀ n, f.isZero n = true → (style.decimal f n).value = 0 := by
    intro n hn
    rw [decimal, if_pos hn]
    simp [Dec.value]
  have hzero : ∀ n, f.isZero n = true → n % 2 ^ (f.fractionBits + f.exponentBits) = 0 := by
    intro n hn
    rw [← (Format.magnitude_mod f n).2] at hn
    obtain ⟨e, fraction, he, hfraction, hparts⟩ := Format.exists_parts (hlt n)
    rw [hparts, Format.isZero_eq he hfraction] at hn
    rw [hparts, hn.1, hn.2, Nat.mul_zero]
  cases hza : f.isZero a with
  | true =>
    cases hzb : f.isZero b with
    | true => rw [hzero a hza, hzero b hzb]
    | false =>
      rw [hvalue a hza] at h
      exact absurd h (hrounds b hzb).2.ne
  | false =>
    cases hzb : f.isZero b with
    | true =>
      rw [hvalue b hzb] at h
      exact absurd h (hrounds a hza).2.ne'
    | false =>
      refine Format.rounds_unique hf (v := (style.decimal f b).value) (hlt a) (hlt b) ?_ ?_
      · rw [(Format.magnitude_mod f a).1, ← h]
        exact (hrounds a hza).1
      · rw [(Format.magnitude_mod f b).1]
        exact (hrounds b hzb).1

theorem signed_injective {s s' : Bool} {c c' : Char} {cs cs' : List Char} (hc : c.isDigit = true)
    (hc' : c'.isDigit = true)
    (h : (if s then ['-'] else []) ++ c :: cs = (if s' then ['-'] else []) ++ c' :: cs') :
    s = s' ∧ c :: cs = c' :: cs' := by
  have hdigit : ∀ {c : Char}, c.isDigit = true → c ≠ '-' := by
    rintro c hc rfl
    cases hc
  cases s with
  | true =>
    cases s' with
    | true => exact ⟨rfl, by simpa using h⟩
    | false => exact absurd (List.cons.inj h).1.symm (hdigit hc')
  | false =>
    cases s' with
    | true => exact absurd (List.cons.inj h).1 (hdigit hc)
    | false => exact ⟨rfl, by simpa using h⟩

/-- The text of a finite number tells its bits. -/
theorem write_injective (style : Layout) (hf : 0 < f.fractionBits) {a b : Nat}
    (ha : a < 2 ^ (f.fractionBits + f.exponentBits + 1))
    (hb : b < 2 ^ (f.fractionBits + f.exponentBits + 1))
    (hfa : f.Finite a) (hfb : f.Finite b) (h : style.write f a = style.write f b) : a = b := by
  have htext := congrArg String.toList h
  rw [toList_write style hfa, toList_write style hfb] at htext
  -- A sign cannot be taken for a digit.
  obtain ⟨hsign, hplace⟩ : f.negative a = f.negative b ∧
      style.place (style.decimal f a) = style.place (style.decimal f b) := by
    obtain ⟨c, cs, hc, hdigit⟩ := place_head style (style.decimal f a)
    obtain ⟨c', cs', hc', hdigit'⟩ := place_head style (style.decimal f b)
    rw [hc, hc'] at htext ⊢
    exact signed_injective hdigit hdigit' htext
  have hvalue : (style.decimal f a).value = (style.decimal f b).value := by
    rw [← textValue_place style, hplace, textValue_place]
  have hrest := decimal_injective style hf hvalue
  have hquotient : a / 2 ^ (f.fractionBits + f.exponentBits) =
      b / 2 ^ (f.fractionBits + f.exponentBits) := by
    have hlt : ∀ n, n < 2 ^ (f.fractionBits + f.exponentBits + 1) →
        n / 2 ^ (f.fractionBits + f.exponentBits) < 2 := fun n hn =>
      Nat.div_lt_of_lt_mul (by rwa [← pow_succ])
    have hla := hlt a ha
    have hlb := hlt b hb
    simp only [Format.negative, Nat.pow_eq, Nat.mod_eq_of_lt hla, Nat.mod_eq_of_lt hlb] at hsign
    have hone := beq_eq_beq.mp hsign
    generalize a / 2 ^ (f.fractionBits + f.exponentBits) = qa at *
    generalize b / 2 ^ (f.fractionBits + f.exponentBits) = qb at *
    omega
  rw [← Nat.div_add_mod a (2 ^ (f.fractionBits + f.exponentBits)), hrest, hquotient, Nat.div_add_mod]

end Layout

end Didl.Decimal
