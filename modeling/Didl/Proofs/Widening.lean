import Didl.Proofs.Rounding

namespace Didl.Decimal

/-- The exponent and the fraction that a finite single has as a double. A single below the range of
its own exponents gets one as a double. -/
def widened (e fraction : Nat) : Nat × Nat :=
  if e ≠ 0 then (e + 896, fraction * 2 ^ 29)
  else if fraction = 0 then (0, 0)
  else (fraction.log2 + 874, (fraction - 2 ^ fraction.log2) * 2 ^ (52 - fraction.log2))

section Widened
variable {e e' fraction fraction' : Nat}

theorem widened_cases (h : fraction < 2 ^ 23) :
    (e ≠ 0 ∧ widened e fraction = (e + 896, fraction * 2 ^ 29)) ∨
    (e = 0 ∧ fraction = 0 ∧ widened e fraction = (0, 0)) ∨
    e = 0 ∧ ∃ top < 23, 2 ^ top ≤ fraction ∧ fraction - 2 ^ top < 2 ^ top ∧
      widened e fraction = (top + 874, (fraction - 2 ^ top) * 2 ^ (52 - top)) := by
  by_cases he : e = 0
  · by_cases hzero : fraction = 0
    · exact .inr (.inl ⟨he, hzero, by simp [widened, he, hzero]⟩)
    · have hlt := Nat.lt_log2_self (n := fraction)
      rw [pow_succ] at hlt
      refine .inr (.inr ⟨he, fraction.log2, (Nat.log2_lt hzero).mpr h, Nat.log2_self_le hzero,
        by omega, ?_⟩)
      simp [widened, he, hzero]
  · exact .inl ⟨he, by simp [widened, he]⟩

theorem widened_lt (he : e < 255) (h : fraction < 2 ^ 23) :
    (widened e fraction).1 < 2047 ∧ (widened e fraction).2 < 2 ^ 52 := by
  rcases widened_cases (e := e) h with ⟨_, hw⟩ | ⟨_, _, hw⟩ | ⟨_, top, htop, _, hlt, hw⟩
  · rw [hw]
    exact ⟨by simp only; omega, by simp only; omega⟩
  · rw [hw]
    exact ⟨by norm_num, by norm_num⟩
  · rw [hw]
    refine ⟨by simp only; omega, ?_⟩
    calc (fraction - 2 ^ top) * 2 ^ (52 - top) < 2 ^ top * 2 ^ (52 - top) := by gcongr
      _ = 2 ^ 52 := by rw [← pow_add]; congr 1; omega

/-- The exponents of both kinds of singles and that of zero lie apart. -/
theorem widened_injective (h : fraction < 2 ^ 23) (h' : fraction' < 2 ^ 23)
    (heq : widened e fraction = widened e' fraction') : e = e' ∧ fraction = fraction' := by
  rcases widened_cases (e := e) h with ⟨he, hw⟩ | ⟨he, hf, hw⟩ | ⟨he, top, htop, hle, _, hw⟩ <;>
    rcases widened_cases (e := e') h' with ⟨he', hw'⟩ | ⟨he', hf', hw'⟩ | ⟨he', top', htop', hle', _, hw'⟩ <;>
    obtain ⟨hexponent, hfraction⟩ := Prod.mk.inj (hw.symm.trans (heq.trans hw'))
  case inr.inr.inr.inr =>
    obtain rfl : top = top' := by omega
    have := Nat.eq_of_mul_eq_mul_right (by positivity) hfraction
    omega
  all_goals omega

end Widened

/-- A finite single as a double has the same sign and the widened exponent and fraction. -/
theorem widen_eq {bits : Nat} (h : Format.single.exponent bits ≠ 255) :
    widen bits = (if Format.single.negative bits then 2 ^ 63 else 0) +
      (widened (Format.single.exponent bits) (Format.single.fraction bits)).1 * 2 ^ 52 +
      (widened (Format.single.exponent bits) (Format.single.fraction bits)).2 := by
  simp only [widen, widened, beq_iff_eq, if_neg h, Nat.pow_eq, bne_iff_ne]
  split
  · rfl
  · split <;> simp

theorem single_parts {bits : Nat} (h : Format.single.Finite bits) :
    Format.single.exponent bits < 255 ∧ Format.single.fraction bits < 2 ^ 23 := by
  have hne : Format.single.exponent bits ≠ 255 := Format.finite_iff.mp h
  have hlt : Format.single.exponent bits < 256 := Nat.mod_lt _ (by decide)
  exact ⟨by omega, Nat.mod_lt _ (by decide)⟩

/-- A finite single is a finite double. -/
theorem widen_finite {bits : Nat} (h : Format.single.Finite bits) :
    widen bits < 2 ^ 64 ∧ Format.double.Finite (widen bits) := by
  obtain ⟨he, hfraction⟩ := single_parts h
  obtain ⟨hlt, hlt'⟩ := widened_lt he hfraction
  rw [widen_eq (by omega)]
  generalize widened _ _ = parts at hlt hlt'
  have hexponent : ∀ sign, sign = 2 ^ 63 ∨ sign = 0 →
      Format.double.exponent (sign + parts.1 * 2 ^ 52 + parts.2) = parts.1 := by
    intro sign hsign
    change (sign + parts.1 * 2 ^ 52 + parts.2) / 2 ^ 52 % 2 ^ 11 = parts.1
    omega
  split
  · refine ⟨by omega, Format.finite_iff.mpr ?_⟩
    rw [hexponent _ (.inl rfl)]
    exact hlt.ne
  · refine ⟨by omega, Format.finite_iff.mpr ?_⟩
    rw [hexponent _ (.inr rfl)]
    exact hlt.ne

/-- Finite singles stay apart as doubles. -/
theorem widen_injective {a b : Nat} (ha : a < 2 ^ 32) (hb : b < 2 ^ 32)
    (hfa : Format.single.Finite a) (hfb : Format.single.Finite b) (h : widen a = widen b) :
    a = b := by
  obtain ⟨hea, hfraction⟩ := single_parts hfa
  obtain ⟨heb, hfraction'⟩ := single_parts hfb
  rw [widen_eq (by omega), widen_eq (by omega)] at h
  obtain ⟨hlt, hlt'⟩ := widened_lt hea hfraction
  obtain ⟨hltb, hltb'⟩ := widened_lt heb hfraction'
  generalize hwa : widened (Format.single.exponent a) (Format.single.fraction a) = wa at *
  generalize hwb : widened (Format.single.exponent b) (Format.single.fraction b) = wb at *
  obtain ⟨hsign, hw⟩ : Format.single.negative a = Format.single.negative b ∧ wa = wb := by
    generalize Format.single.negative a = sign at h ⊢
    generalize Format.single.negative b = sign' at h ⊢
    cases sign <;> cases sign' <;> simp only [if_true, if_false, Bool.false_eq_true] at h
    · exact ⟨rfl, Prod.ext (by omega) (by omega)⟩
    · omega
    · omega
    · exact ⟨rfl, Prod.ext (by omega) (by omega)⟩
  obtain ⟨he, hf⟩ := widened_injective hfraction hfraction' (hwa.trans (hw.trans hwb.symm))
  replace hsign : (a / 2 ^ 31 % 2 == 1) = (b / 2 ^ 31 % 2 == 1) := hsign
  replace he : a / 2 ^ 23 % 2 ^ 8 = b / 2 ^ 23 % 2 ^ 8 := he
  replace hf : a % 2 ^ 23 = b % 2 ^ 23 := hf
  rw [beq_eq_beq] at hsign
  omega

end Didl.Decimal
