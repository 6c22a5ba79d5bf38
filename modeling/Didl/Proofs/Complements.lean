import Mathlib
import Didl.Varint

namespace Didl.Varint

theorem toNat_group {n : Nat} (h : n < 128) : (UInt8.ofNat n).toNat = n := by
  rw [UInt8.toNat_ofNat']
  omega

theorem div_pow_succ (i : Int) {b : Int} (hb : 0 ≤ b) (k : Nat) : i / b ^ (k + 1) = i / b / b ^ k := by
  rw [Int.ediv_ediv_of_nonneg hb, Int.pow_succ, Int.mul_comm]

/-- Past its end the two's complement form goes on with its sign, byte after byte. -/
theorem complement_getD (i : Int) (j : Nat) :
    ((complement i).getD j (if i < 0 then 0xff else 0)).toNat = (i / 256 ^ j % 256).toNat := by
  have hbyte : ∀ i : Int, (UInt8.ofNat (i % 256).toNat).toNat = (i % 256).toNat := by
    intro i
    rw [UInt8.toNat_ofNat']
    omega
  have hsign : ∀ j : Nat, (-1 : Int) / 256 ^ j = -1 := by
    intro j
    induction j with
    | zero => rfl
    | succ j ih => rw [div_pow_succ _ (by omega)]; exact ih
  induction i using complement.induct generalizing j with
  | case1 i h =>
    rw [complement, if_pos h]
    cases j with
    | zero => simpa using hbyte i
    | succ j =>
      rw [List.getD_cons_succ, List.getD_nil, div_pow_succ _ (by omega)]
      split
      · rw [show i / 256 = -1 by omega, hsign]
        rfl
      · rw [show i / 256 = 0 by omega, Int.zero_ediv]
        rfl
  | case2 i h ih =>
    rw [complement, if_neg h]
    cases j with
    | zero => simpa using hbyte i
    | succ j =>
      rw [List.getD_cons_succ, div_pow_succ _ (by omega), ← ih]
      congr 3
      exact propext ⟨fun hneg => by omega, fun hneg => by omega⟩

/-- Seven bits out of two bytes that lie next to each other. -/
theorem toNat_window (low high : UInt8) {r : Nat} (hr : r < 8) :
    ((high.toUInt16 <<< 8 ||| low.toUInt16) >>> UInt16.ofNat r &&& 0x7f).toUInt8.toNat =
      (256 * high.toNat + low.toNat) / 2 ^ r % 128 := by
  have hlow := low.toNat_lt
  have hhigh := high.toNat_lt
  have hword : (high.toUInt16 <<< 8 ||| low.toUInt16).toNat = 256 * high.toNat + low.toNat := by
    rw [UInt16.toNat_or, UInt16.toNat_shiftLeft, UInt8.toNat_toUInt16, UInt8.toNat_toUInt16]
    change high.toNat <<< 8 % 2 ^ 16 ||| low.toNat = _
    rw [Nat.mod_eq_of_lt (by rw [Nat.shiftLeft_eq]; omega), ← Nat.shiftLeft_add_eq_or_of_lt hlow,
      Nat.shiftLeft_eq, Nat.mul_comm]
  have hshift : (UInt16.ofNat r).toNat % 16 = r := by
    rw [UInt16.toNat_ofNat']
    omega
  rw [UInt16.toNat_toUInt8, UInt16.toNat_and, UInt16.toNat_shiftRight, hword, hshift]
  change ((256 * high.toNat + low.toNat) >>> r &&& 2 ^ 7 - 1) % 2 ^ 8 = _
  rw [Nat.and_two_pow_sub_one_eq_mod, Nat.shiftRight_eq_div_pow]
  omega

/-- A group that is cut out of the bytes of an integer is its digit to the base 128, whichever way
it lies across the bytes. -/
theorem cut_complement (i : Int) (k : Nat) :
    cut (complement i) (if i < 0 then 0xff else 0) k = UInt8.ofNat (i / 128 ^ k % 128).toNat := by
  have hr : 7 * k % 8 < 8 := Nat.mod_lt _ (by omega)
  apply UInt8.toNat_inj.mp
  rw [cut, toNat_window _ _ hr, complement_getD, complement_getD, toNat_group (by omega),
    Int.pow_succ, ← Int.ediv_ediv_of_nonneg (Int.pow_nonneg (by omega))]
  have hplace : i / 128 ^ k = i / 256 ^ (7 * k / 8) / 2 ^ (7 * k % 8) := by
    rw [Int.ediv_ediv_of_nonneg (Int.pow_nonneg (by omega)), show (128 : Int) = 2 ^ 7 from rfl,
      show (256 : Int) = 2 ^ 8 from rfl, ← Int.pow_mul, ← Int.pow_mul, ← Int.pow_add, Nat.div_add_mod]
  rw [hplace]
  generalize i / 256 ^ (7 * k / 8) = x
  generalize 7 * k % 8 = r at hr
  interval_cases r <;> omega

end Didl.Varint
