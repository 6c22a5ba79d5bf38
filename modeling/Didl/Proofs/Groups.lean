import Mathlib
import Didl.Prelude.Entry
import Didl.Proofs.Complements
import Didl.Proofs.Steps

namespace Didl.Varint

theorem last_group : ∀ n < 128, payload (UInt8.ofNat n) = UInt8.ofNat n ∧
    isLast (UInt8.ofNat n) = true ∧ (isNegative (UInt8.ofNat n) = decide (64 ≤ n)) := by
  decide +kernel

theorem more_group : ∀ n < 128, payload (more (UInt8.ofNat n)) = UInt8.ofNat n ∧
    isLast (more (UInt8.ofNat n)) = false := by
  decide +kernel

def marked : List Nat → List UInt8
  | [] => []
  | [n] => [UInt8.ofNat n]
  | n :: rest => more (UInt8.ofNat n) :: marked rest

theorem marked_cons {n : Nat} {rest : List Nat} (h : rest ≠ []) :
    marked (n :: rest) = more (UInt8.ofNat n) :: marked rest := by
  cases rest with
  | nil => exact absurd rfl h
  | cons m rest => rfl

theorem length_marked (ds : List Nat) : (marked ds).length = ds.length := by
  induction ds with
  | nil => rfl
  | cons n rest ih =>
    cases rest with
    | nil => rfl
    | cons m rest =>
      rw [marked_cons (by simp), List.length_cons, ih]
      rfl

def digits (n : Nat) : List Nat :=
  if n < 128 then [n] else n % 128 :: digits (n / 128)
termination_by n

theorem digits_ne_nil (n : Nat) : digits n ≠ [] := by
  rw [digits]
  split <;> simp

theorem ofNat_eq (n : Nat) : ofNat n = marked (digits n) := by
  induction n using digits.induct with
  | case1 n h => rw [ofNat, if_pos h, digits, if_pos h]; rfl
  | case2 n h ih =>
    rw [ofNat, if_neg h, digits, if_neg h, marked_cons (digits_ne_nil _), ih]

theorem digits_lt (n : Nat) : ∀ d ∈ digits n, d < 128 := by
  induction n using digits.induct with
  | case1 n h =>
    rw [digits, if_pos h]
    intro d hd
    rw [List.mem_singleton.mp hd]
    exact h
  | case2 n h ih =>
    rw [digits, if_neg h]
    intro d hd
    rcases List.mem_cons.mp hd with rfl | hd
    · exact Nat.mod_lt _ (by omega)
    · exact ih d hd

def signedDigits : Nat → Int → List Nat
  | 0, _ => []
  | 1, i => [(i % 128).toNat]
  | count + 1, i => (i % 128).toNat :: signedDigits count (i / 128)

theorem signedDigits_succ (count : Nat) (i : Int) :
    signedDigits (count + 2) i = (i % 128).toNat :: signedDigits (count + 1) (i / 128) := rfl

theorem length_signedDigits (count : Nat) (i : Int) : (signedDigits count i).length = count := by
  induction count generalizing i with
  | zero => rfl
  | succ count ih =>
    cases count with
    | zero => rfl
    | succ count => rw [signedDigits_succ, List.length_cons, ih]

theorem cutGroups_eq (i : Int) (count k : Nat) :
    cutGroups (complement i) (if i < 0 then 0xff else 0) count k =
      marked (signedDigits count (i / 128 ^ k)) := by
  induction count generalizing k with
  | zero => rfl
  | succ count ih =>
    cases count with
    | zero =>
      rw [cutGroups, cut_complement]
      rfl
    | succ count =>
      have hne : signedDigits (count + 1) (i / 128 ^ (k + 1)) ≠ [] := by
        rw [← List.length_pos_iff, length_signedDigits]
        omega
      have hnext : i / 128 ^ k / 128 = i / 128 ^ (k + 1) := by
        rw [Int.ediv_ediv_of_nonneg (Int.pow_nonneg (by omega)), Int.pow_succ]
      rw [signedDigits_succ, hnext, marked_cons hne, ← ih, ← cut_complement]
      rfl

/-- An integer is written in the digits that its two's complement form has to the base 128. -/
theorem ofInt_eq (i : Int) : ofInt i = marked (signedDigits (sizeInt i) i) := by
  rw [ofInt, cutGroups_eq, Int.pow_zero, Int.ediv_one]

theorem signedDigits_lt (count : Nat) (i : Int) : ∀ d ∈ signedDigits count i, d < 128 := by
  induction count generalizing i with
  | zero => simp [signedDigits]
  | succ count ih =>
    have hmod : (i % 128).toNat < 128 := by omega
    intro d hd
    cases count with
    | zero =>
      rw [List.mem_singleton.mp hd]
      exact hmod
    | succ count =>
      rcases List.mem_cons.mp hd with rfl | hd
      · exact hmod
      · exact ih _ d hd

theorem bitLength_spec (n : Nat) : n < 2 ^ bitLength n := by
  unfold bitLength
  split
  · rename_i h
    subst h
    decide
  · exact Nat.lt_log2_self

/-- As many groups as `sizeInt` tells hold an integer with its sign. -/
theorem sizeInt_spec (i : Int) :
    1 ≤ sizeInt i ∧ -(2 : Int) ^ (7 * sizeInt i - 1) ≤ i ∧ i < 2 ^ (7 * sizeInt i - 1) := by
  have hbits : ∀ m, m ≤ 7 * max 1 ((m + 1 + 6) / 7) - 1 := by omega
  have hpow : ∀ n, n < 2 ^ bitLength n → ∀ k, bitLength n ≤ k → (n : Int) < 2 ^ k := by
    intro n hn k hk
    exact_mod_cast Nat.lt_of_lt_of_le hn (Nat.pow_le_pow_right (by omega) hk)
  refine ⟨by unfold sizeInt; omega, ?_⟩
  cases i with
  | ofNat n =>
    have := hpow n (bitLength_spec n) _ (hbits (bitLength n))
    simp only [sizeInt, magnitudeBits, Int.ofNat_eq_natCast]
    exact ⟨by omega, this⟩
  | negSucc n =>
    have := hpow n (bitLength_spec n) _ (hbits (bitLength n))
    simp only [sizeInt, magnitudeBits]
    exact ⟨by omega, by omega⟩

theorem value_digits (n : Nat) : value ((digits n).map UInt8.ofNat) = n := by
  induction n using digits.induct with
  | case1 n h =>
    rw [digits, if_pos h]
    simp only [List.map_cons, List.map_nil, value, toNat_group h]
    omega
  | case2 n h ih =>
    rw [digits, if_neg h]
    simp only [List.map_cons, value, ih, toNat_group (Nat.mod_lt n (by omega : 128 > 0))]
    omega

theorem signedValue_eq {gs : List UInt8} {last : UInt8} (h : gs.getLast? = some last) :
    signedValue gs =
      if isNegative last = true then (value gs : Int) - 2 ^ (7 * gs.length) else (value gs : Int) := by
  simp only [signedValue, h, Nat.pow_eq, Nat.cast_pow, Nat.cast_ofNat]

theorem signedValue_cons (g : UInt8) {gs : List UInt8} (h : gs ≠ []) :
    signedValue (g :: gs) = g.toNat + 128 * signedValue gs := by
  obtain ⟨last, hlast⟩ := List.getLast?_isSome.mpr h |> Option.isSome_iff_exists.mp
  have hcons : (g :: gs).getLast? = some last := by
    rw [List.getLast?_cons, hlast]
    rfl
  have hpow : (2 : Int) ^ (7 * (gs.length + 1)) = 128 * 2 ^ (7 * gs.length) := by
    rw [Nat.mul_add, Int.pow_add]
    omega
  rw [signedValue_eq hcons, signedValue_eq hlast, List.length_cons, hpow, value]
  split
  · push_cast
    omega
  · push_cast
    omega

theorem signedValue_signedDigits (count : Nat) (i : Int)
    (hlow : -(2 : Int) ^ (7 * (count + 1) - 1) ≤ i) (hhigh : i < 2 ^ (7 * (count + 1) - 1)) :
    signedValue ((signedDigits (count + 1) i).map UInt8.ofNat) = i := by
  induction count generalizing i with
  | zero =>
    have hd : (i % 128).toNat < 128 := by omega
    have hlast := (last_group _ hd).2.2
    have hnat := toNat_group hd
    simp only [Nat.zero_add, Nat.mul_one, Nat.reduceSub] at hlow hhigh
    rw [show signedDigits (0 + 1) i = [(i % 128).toNat] from rfl, List.map_singleton]
    rw [signedValue_eq (List.getLast?_singleton), hlast, value, value, hnat]
    simp only [decide_eq_true_eq, List.length_singleton]
    split <;> omega
  | succ count ih =>
    have hpow : (2 : Int) ^ (7 * (count + 1 + 1) - 1) = 128 * 2 ^ (7 * (count + 1) - 1) := by
      rw [show 7 * (count + 1 + 1) - 1 = 7 * (count + 1) - 1 + 7 by omega, Int.pow_add]
      omega
    have hd : (i % 128).toNat < 128 := by omega
    have hne : (signedDigits (count + 1) (i / 128)).map UInt8.ofNat ≠ [] := by
      rw [← List.length_pos_iff, List.length_map, length_signedDigits]
      omega
    rw [signedDigits_succ, List.map_cons, signedValue_cons _ hne, ih _ (by omega) (by omega),
      toNat_group hd]
    omega

end Didl.Varint

namespace Didl.Reader
open Varint

theorem byte_cons (b : UInt8) (bs : List UInt8) : byte (b :: bs) = (.ok b, bs) := rfl

theorem groups_marked {ds : List Nat} (hne : ds ≠ []) (hlt : ∀ d ∈ ds, d < 128) (count : Nat)
    (done : List UInt8) (rest : List UInt8) :
    (ds.length ≤ count ∧ groups count done (marked ds ++ rest) =
      (.ok (done.reverse ++ ds.map UInt8.ofNat), rest)) ∨
    (count < ds.length ∧ ∃ left, groups count done (marked ds ++ rest) = (.error .malformedVarint, left)) := by
  induction ds generalizing count done with
  | nil => exact absurd rfl hne
  | cons d ds ih =>
    have hd := hlt d List.mem_cons_self
    cases count with
    | zero => exact .inr ⟨by simp, _, rfl⟩
    | succ count =>
      cases ds with
      | nil =>
        obtain ⟨hpayload, hlast, _⟩ := last_group d hd
        refine .inl ⟨by simp, ?_⟩
        rw [groups]
        refine (Step.bind_ok (byte_cons _ _)).trans ?_
        simp only [hlast, if_true, hpayload]
        simp
      | cons d' ds =>
        obtain ⟨hpayload, hlast⟩ := more_group d hd
        have hstep : groups (count + 1) done (marked (d :: d' :: ds) ++ rest) =
            groups count (UInt8.ofNat d :: done) (marked (d' :: ds) ++ rest) := by
          rw [groups]
          refine (Step.bind_ok (byte_cons _ _)).trans ?_
          simp only [hlast, hpayload, Bool.false_eq_true, if_false]
          rfl
        rw [hstep]
        rcases ih (by simp) (fun x hx => hlt x (List.mem_cons_of_mem _ hx)) count
          (UInt8.ofNat d :: done) with ⟨hle, hok⟩ | ⟨hgt, left, herror⟩
        · refine .inl ⟨by simpa using hle, ?_⟩
          rw [hok]
          simp
        · exact .inr ⟨by simpa using hgt, left, herror⟩

/-- A natural number is read back, or it takes more groups than are allowed. -/
theorem nat_ofNat (n : Nat) (rest : List UInt8) :
    nat (ofNat n ++ rest) = (.ok n, rest) ∨
      (maxGroups < (ofNat n).length ∧ ∃ left, nat (ofNat n ++ rest) = (.error .malformedVarint, left)) := by
  rw [ofNat_eq]
  rcases groups_marked (digits_ne_nil n) (digits_lt n) maxGroups [] rest with
    ⟨_, hok⟩ | ⟨hgt, left, herror⟩
  · refine .inl ((Step.bind_ok hok).trans ?_)
    rw [List.reverse_nil, List.nil_append, value_digits]
    rfl
  · exact .inr ⟨by rwa [length_marked], left, Step.bind_error herror⟩

theorem int_ofInt (i : Int) (rest : List UInt8) :
    int (ofInt i ++ rest) = (.ok i, rest) ∨
      (maxGroups < (ofInt i).length ∧ ∃ left, int (ofInt i ++ rest) = (.error .malformedVarint, left)) := by
  obtain ⟨hpos, hlow, hhigh⟩ := sizeInt_spec i
  obtain ⟨count, hcount⟩ : ∃ count, sizeInt i = count + 1 := ⟨sizeInt i - 1, by omega⟩
  have hne : signedDigits (count + 1) i ≠ [] := by
    rw [← List.length_pos_iff, length_signedDigits]
    omega
  rw [hcount] at hlow hhigh
  rw [ofInt_eq, hcount]
  rcases groups_marked hne (signedDigits_lt _ _) maxGroups [] rest with
    ⟨_, hok⟩ | ⟨hgt, left, herror⟩
  · refine .inl ((Step.bind_ok hok).trans ?_)
    rw [List.reverse_nil, List.nil_append, signedValue_signedDigits _ _ hlow hhigh]
    rfl
  · exact .inr ⟨by rwa [length_marked], left, Step.bind_error herror⟩

end Didl.Reader

namespace Didl.Reader
open Varint

/-- Laying a group over a word that ends below it is adding it, up to what the word has room for. -/
theorem toNat_or_shift (w g : UInt64) {s : Nat} (hs : s < 64) (hw : w.toNat < 2 ^ s) :
    (w ||| (g <<< UInt64.ofNat s)).toNat = (w.toNat + g.toNat * 2 ^ s) % 2 ^ 64 := by
  have hshift : (UInt64.ofNat s).toNat % 64 = s := by
    rw [UInt64.toNat_ofNat']
    omega
  have hsplit : (2 : Nat) ^ 64 = 2 ^ s * 2 ^ (64 - s) := by
    rw [← Nat.pow_add]
    congr 1
    omega
  have hlow : g.toNat * 2 ^ s % 2 ^ 64 = (g.toNat % 2 ^ (64 - s)) <<< s := by
    rw [hsplit, Nat.mul_comm g.toNat, Nat.mul_mod_mul_left, Nat.shiftLeft_eq, Nat.mul_comm]
  have hfits : g.toNat * 2 ^ s % 2 ^ 64 + w.toNat < 2 ^ 64 := by
    have hq : g.toNat % 2 ^ (64 - s) + 1 ≤ 2 ^ (64 - s) := Nat.mod_lt _ (Nat.two_pow_pos _)
    have hle := Nat.mul_le_mul_right (2 ^ s) hq
    rw [Nat.mul_comm (2 ^ (64 - s)), ← hsplit, Nat.add_mul, Nat.one_mul] at hle
    rw [hlow, Nat.shiftLeft_eq]
    omega
  rw [UInt64.toNat_or, UInt64.toNat_shiftLeft, hshift, Nat.shiftLeft_eq, hlow, Nat.or_comm,
    ← Nat.shiftLeft_add_eq_or_of_lt hw, ← hlow]
  omega

theorem toNat_shift_succ (k : Nat) : UInt64.ofNat (7 * k) + 7 = UInt64.ofNat (7 * (k + 1)) := by
  rw [Nat.mul_add, UInt64.ofNat_add]
  rfl

theorem toNat_group64 {d : Nat} (h : d < 128) : (UInt8.ofNat d).toUInt64.toNat = d := by
  rw [UInt8.toNat_toUInt64, toNat_group h]

/-- Only the tenth group is looked at for want of room. -/
theorem room_below {k : Nat} (hk : k < 9) (g : UInt64) :
    (UInt64.ofNat (7 * k) == 63 && decide (g > 1)) = false := by
  have hne : (UInt64.ofNat (7 * k) == 63) = false := by
    apply beq_eq_false_iff_ne.mpr
    intro he
    have hnat := congrArg UInt64.toNat he
    rw [UInt64.toNat_ofNat'] at hnat
    change 7 * k % 2 ^ 64 = 63 at hnat
    omega
  rw [hne, Bool.false_and]

/-- A group that fits is not refused for want of room. -/
theorem tenth_group {d k : Nat} (hd : d < 128) (hk : k ≤ 9) (hfit : d * 2 ^ (7 * k) < 2 ^ 64) :
    (UInt64.ofNat (7 * k) == 63 && decide ((UInt8.ofNat d).toUInt64 > 1)) = false := by
  by_cases hk9 : k = 9
  · subst hk9
    have hle : ¬ (UInt8.ofNat d).toUInt64 > 1 := by
      rw [gt_iff_lt, UInt64.lt_iff_toNat_lt, toNat_group64 hd]
      change ¬ 1 < d
      omega
    rw [decide_eq_false hle, Bool.and_false]
  · exact room_below (by omega) _

theorem word_of_group {d k : Nat} {word : UInt64} (hd : d < 128) (hk : k ≤ 9)
    (hw : word.toNat < 2 ^ (7 * k)) :
    word ||| ((UInt8.ofNat d).toUInt64 <<< UInt64.ofNat (7 * k)) =
      UInt64.ofNat (word.toNat + d * 2 ^ (7 * k)) := by
  apply UInt64.toNat_inj.mp
  rw [toNat_or_shift _ _ (by omega) hw, toNat_group64 hd, UInt64.toNat_ofNat']

/-- The groups of a number that fits into a word fill it up from where they begin. -/
theorem unsignedGroups_digits (n k : Nat) (word : UInt64) (rest : List UInt8) (hk : k ≤ 9)
    (hw : word.toNat < 2 ^ (7 * k)) (hn : word.toNat + n * 2 ^ (7 * k) < 2 ^ 64) :
    unsignedGroups (10 - k) (UInt64.ofNat (7 * k)) word (marked (digits n) ++ rest) =
      (.ok (UInt64.ofNat (word.toNat + n * 2 ^ (7 * k))), rest) := by
  have hcount : 10 - k = (9 - k) + 1 := by omega
  induction n using digits.induct generalizing k word with
  | case1 n h =>
    obtain ⟨hpayload, hlast, _⟩ := last_group n h
    rw [digits, if_pos h, hcount, unsignedGroups]
    refine (Step.bind_ok (byte_cons _ _)).trans ?_
    simp only [hpayload, hlast, if_true, tenth_group h hk (by omega), word_of_group h hk hw]
    rfl
  | case2 n h ih =>
    have hd : n % 128 < 128 := Nat.mod_lt _ (by omega)
    obtain ⟨hpayload, hlast⟩ := more_group _ hd
    have hpow : 2 ^ (7 * (k + 1)) = 128 * 2 ^ (7 * k) := by
      rw [Nat.mul_add, Nat.pow_add, Nat.mul_comm]
    have hsplit : n * 2 ^ (7 * k) = n % 128 * 2 ^ (7 * k) + n / 128 * 2 ^ (7 * (k + 1)) := by
      rw [hpow, ← Nat.mul_assoc, ← Nat.add_mul]
      congr 1
      omega
    have hk8 : k ≤ 8 := by
      apply Nat.le_of_not_lt
      intro hlt
      obtain rfl : k = 9 := by omega
      omega
    have hfit : word.toNat + n % 128 * 2 ^ (7 * k) < 2 ^ 64 := by omega
    have hnext : (UInt64.ofNat (word.toNat + n % 128 * 2 ^ (7 * k))).toNat =
        word.toNat + n % 128 * 2 ^ (7 * k) := by
      rw [UInt64.toNat_ofNat', Nat.mod_eq_of_lt hfit]
    have hbelow : word.toNat + n % 128 * 2 ^ (7 * k) < 2 ^ (7 * (k + 1)) := by
      have := Nat.mul_le_mul_right (2 ^ (7 * k)) (Nat.le_of_lt_succ hd)
      omega
    have hrest := ih (k + 1) (UInt64.ofNat (word.toNat + n % 128 * 2 ^ (7 * k))) (by omega)
      (by rw [hnext]; exact hbelow) (by rw [hnext]; omega) (by omega)
    rw [hnext] at hrest
    rw [digits, if_neg h, marked_cons (digits_ne_nil _), hcount, unsignedGroups]
    refine (Step.bind_ok (byte_cons _ _)).trans ?_
    simp only [hpayload, hlast, Bool.false_eq_true, if_false,
      tenth_group hd hk (by omega), word_of_group hd hk hw, toNat_shift_succ]
    rw [show 9 - k = 10 - (k + 1) by omega]
    refine hrest.trans ?_
    rw [Nat.add_assoc, ← hsplit]

/-- A number that fits into a word is read back from its groups. -/
theorem varUInt64_ofNat {n : Nat} (h : n < 2 ^ 64) (rest : List UInt8) :
    varUInt64 (ofNat n ++ rest) = (.ok (UInt64.ofNat n), rest) := by
  have hread := unsignedGroups_digits n 0 0 rest (by omega) (by decide) (by simpa using h)
  rw [ofNat_eq]
  simpa [varUInt64, maxWordGroups] using hread

/-- The groups of a number that does not fit into a word run out of room at the tenth one. -/
theorem unsignedGroups_tooLong (n k : Nat) (word : UInt64) (rest : List UInt8) (hk : k ≤ 9)
    (hn : 2 ^ (64 - 7 * k) ≤ n) :
    ∃ left, unsignedGroups (10 - k) (UInt64.ofNat (7 * k)) word (marked (digits n) ++ rest) =
      (.error .malformedVarint, left) := by
  have hcount : 10 - k = (9 - k) + 1 := by omega
  have htenth : ∀ d, d < 128 → 1 < d →
      (UInt64.ofNat (7 * 9) == 63 && decide ((UInt8.ofNat d).toUInt64 > 1)) = true := by decide
  induction n using digits.induct generalizing k word with
  | case1 n h =>
    obtain ⟨hpayload, hlast, _⟩ := last_group n h
    obtain rfl : k = 9 := by
      refine Nat.le_antisymm hk (Nat.le_of_not_lt fun hlt => ?_)
      have := Nat.pow_le_pow_right (n := 2) (by omega) (show 7 ≤ 64 - 7 * k by omega)
      omega
    rw [digits, if_pos h, hcount, unsignedGroups]
    refine ⟨rest, (Step.bind_ok (byte_cons _ _)).trans ?_⟩
    simp only [hpayload, htenth n h hn, if_true]
    rfl
  | case2 n h ih =>
    have hd : n % 128 < 128 := Nat.mod_lt _ (by omega)
    obtain ⟨hpayload, hlast⟩ := more_group _ hd
    rw [digits, if_neg h, marked_cons (digits_ne_nil _), hcount, unsignedGroups]
    rcases Nat.lt_or_eq_of_le hk with hlt | rfl
    · have hpow : 2 ^ (64 - 7 * k) = 128 * 2 ^ (64 - 7 * (k + 1)) := by
        rw [show 64 - 7 * k = 7 + (64 - 7 * (k + 1)) by omega, Nat.pow_add]
      obtain ⟨left, hleft⟩ := ih (k + 1)
        (word ||| ((UInt8.ofNat (n % 128)).toUInt64 <<< UInt64.ofNat (7 * k))) (by omega) (by omega)
        (by omega)
      refine ⟨left, (Step.bind_ok (byte_cons _ _)).trans ?_⟩
      simp only [hpayload, hlast, room_below hlt, Bool.false_eq_true, if_false, toNat_shift_succ]
      rw [show 9 - k = 10 - (k + 1) by omega]
      exact hleft
    · refine ⟨marked (digits (n / 128)) ++ rest, (Step.bind_ok (byte_cons _ _)).trans ?_⟩
      simp only [hpayload, hlast, Bool.false_eq_true, if_false]
      split <;> rfl

/-- A number that does not fit into a word is refused. -/
theorem varUInt64_tooLong {n : Nat} (h : 2 ^ 64 ≤ n) (rest : List UInt8) :
    ∃ left, varUInt64 (ofNat n ++ rest) = (.error .malformedVarint, left) := by
  rw [ofNat_eq]
  simpa [varUInt64, maxWordGroups] using unsignedGroups_tooLong n 0 0 rest (by omega) (by simpa using h)

theorem length_ofNat {n : Nat} {rest : List UInt8} (h : n < 2 ^ 64) (hr : n ≤ rest.length) :
    length (ofNat n ++ rest) = (.ok n, rest) := by
  have hn : (UInt64.ofNat n).toNat = n := by rw [UInt64.toNat_ofNat', Nat.mod_eq_of_lt h]
  refine (Step.bind_ok (varUInt64_ofNat h rest)).trans ?_
  rw [hn]
  refine (Step.bind_ok (a := true) ?_).trans rfl
  simp [hasLeft, holds_eq, hr]

theorem toInt64_eq {word : UInt64} {i : Int} (h : (word.toNat : Int) = i % 2 ^ 64) :
    word.toInt64 = Int64.ofInt i := by
  apply Int64.toInt_inj.mp
  rw [Int64.toInt_ofInt]
  change (word.toBitVec.toInt) = _
  rw [BitVec.toInt_eq_toNat_bmod]
  change (word.toNat : Int).bmod (2 ^ 64) = i.bmod (2 ^ 64)
  rw [h]
  exact Int.emod_bmod i (2 ^ 64)

theorem room_above {k : Nat} (hk : k ≤ 9) : UInt64.ofNat (7 * (k + 1)) < 64 ↔ k ≤ 8 := by
  rw [UInt64.lt_iff_toNat_lt, UInt64.toNat_ofNat']
  change 7 * (k + 1) % 2 ^ 64 < 64 ↔ k ≤ 8
  rw [Nat.mod_eq_of_lt (by omega)]
  omega

/-- What the last group does: it is laid over the word, and its sign fills what is left. -/
theorem last_signed {i : Int} {k : Nat} {word : UInt64} (hk : k ≤ 9) (hlow : -64 ≤ i) (hhigh : i < 64)
    (hw : word.toNat < 2 ^ (7 * k)) (rest : List UInt8) :
    signedGroups (10 - k) (UInt64.ofNat (7 * k)) word (UInt8.ofNat (i % 128).toNat :: rest) =
      (.ok (Int64.ofInt (word.toNat + i * 2 ^ (7 * k))), rest) := by
  have hd : (i % 128).toNat < 128 := by omega
  obtain ⟨hpayload, hlast, hnegative⟩ := last_group _ hd
  generalize hlaid : word ||| (UInt8.ofNat (i % 128).toNat).toUInt64 <<< UInt64.ofNat (7 * k) = laid
  have hnat : laid.toNat = (word.toNat + (i % 128).toNat * 2 ^ (7 * k)) % 2 ^ 64 := by
    rw [← hlaid, toNat_or_shift _ _ (by omega) hw, toNat_group64 hd]
  have hword : (laid.toNat : Int) = (word.toNat + (i % 128) * 2 ^ (7 * k)) % 2 ^ 64 := by
    rw [hnat, Int.natCast_emod, Int.natCast_add, Int.natCast_mul, Int.natCast_pow,
      Int.toNat_of_nonneg (by omega)]
    rfl
  have hcount : 10 - k = (9 - k) + 1 := by omega
  rw [hcount, signedGroups]
  refine (Step.bind_ok (byte_cons _ _)).trans ?_
  simp only [hpayload, hlast, if_true, hnegative, toNat_shift_succ, hlaid]
  simp only [Bool.and_eq_true, decide_eq_true_eq, room_above hk]
  split
  · rename_i hsign
    obtain ⟨hk8, hneg⟩ := hsign
    have hmod : i % 128 = i + 128 := by omega
    have hpow : (2 : Nat) ^ (7 * (k + 1)) = 128 * 2 ^ (7 * k) := by
      rw [Nat.mul_add, Nat.pow_add, Nat.mul_comm]
    have hle : (2 : Nat) ^ (7 * (k + 1)) ≤ 2 ^ 63 := Nat.pow_le_pow_right (by omega) (by omega)
    have hbelow : word.toNat + (i % 128).toNat * 2 ^ (7 * k) < 2 ^ (7 * (k + 1)) := by
      have := Nat.mul_le_mul_right (2 ^ (7 * k)) (Nat.le_of_lt_succ hd)
      omega
    have hlaid' : laid.toNat = word.toNat + (i % 128).toNat * 2 ^ (7 * k) := by
      rw [hnat, Nat.mod_eq_of_lt (Nat.lt_trans hbelow (Nat.lt_of_le_of_lt hle (by decide)))]
    have hgroup : (((i % 128).toNat * 2 ^ (7 * k) : Nat) : Int) =
        i * 2 ^ (7 * k) + ((2 ^ (7 * (k + 1)) : Nat) : Int) := by
      rw [Int.natCast_mul, Int.toNat_of_nonneg (by omega), hmod, hpow]
      push_cast
      ring
    rw [Step.pure_apply, toInt64_eq]
    rw [toNat_or_shift _ _ (by omega) (hlaid' ▸ hbelow), hlaid']
    change (((word.toNat + (i % 128).toNat * 2 ^ (7 * k) +
      18446744073709551615 * 2 ^ (7 * (k + 1))) % 18446744073709551616 : Nat) : Int) = _
    generalize (i % 128).toNat * 2 ^ (7 * k) = d at hgroup
    generalize i * 2 ^ (7 * k) = x at hgroup
    generalize 2 ^ (7 * (k + 1)) = p at hgroup
    clear hnat hword hbelow hlaid' hpow hle hmod
    omega
  · rename_i hsign
    rw [Step.pure_apply, toInt64_eq]
    rw [hword]
    by_cases hk9 : k = 9
    · subst hk9
      omega
    · rw [show i % 128 = i by omega]

theorem signedGroups_digits (count : Nat) (i : Int) (k : Nat) (word : UInt64)
    (hk : k + (count + 1) ≤ 10) (hlow : -(2 : Int) ^ (7 * (count + 1) - 1) ≤ i)
    (hhigh : i < 2 ^ (7 * (count + 1) - 1)) (hw : word.toNat < 2 ^ (7 * k)) (rest : List UInt8) :
    signedGroups (10 - k) (UInt64.ofNat (7 * k)) word (marked (signedDigits (count + 1) i) ++ rest) =
      (.ok (Int64.ofInt (word.toNat + i * 2 ^ (7 * k))), rest) := by
  induction count generalizing i k word with
  | zero => exact last_signed (by omega) (by simpa using hlow) (by simpa using hhigh) hw rest
  | succ count ih =>
    have hd : (i % 128).toNat < 128 := by omega
    obtain ⟨hpayload, hlast⟩ := more_group _ hd
    have hpow : (2 : Nat) ^ (7 * (k + 1)) = 128 * 2 ^ (7 * k) := by
      rw [Nat.mul_add, Nat.pow_add, Nat.mul_comm]
    have hle : (2 : Nat) ^ (7 * (k + 1)) ≤ 2 ^ 63 := Nat.pow_le_pow_right (by omega) (by omega)
    have hbelow : word.toNat + (i % 128).toNat * 2 ^ (7 * k) < 2 ^ (7 * (k + 1)) := by
      have := Nat.mul_le_mul_right (2 ^ (7 * k)) (Nat.le_of_lt_succ hd)
      omega
    have hnext : (UInt64.ofNat (word.toNat + (i % 128).toNat * 2 ^ (7 * k))).toNat =
        word.toNat + (i % 128).toNat * 2 ^ (7 * k) := by
      rw [UInt64.toNat_ofNat', Nat.mod_eq_of_lt (Nat.lt_trans hbelow (Nat.lt_of_le_of_lt hle (by decide)))]
    have hbound : (2 : Int) ^ (7 * (count + 1 + 1) - 1) = 128 * 2 ^ (7 * (count + 1) - 1) := by
      rw [show 7 * (count + 1 + 1) - 1 = 7 * (count + 1) - 1 + 7 by omega, Int.pow_add]
      omega
    have hrest := ih (i / 128) (k + 1) (UInt64.ofNat (word.toNat + (i % 128).toNat * 2 ^ (7 * k)))
      (by omega) (by omega) (by omega) (by rw [hnext]; exact hbelow)
    rw [hnext] at hrest
    have hne : signedDigits (count + 1) (i / 128) ≠ [] := by
      rw [← List.length_pos_iff, length_signedDigits]
      omega
    rw [signedDigits_succ, marked_cons hne, show 10 - k = (9 - k) + 1 by omega, signedGroups]
    refine (Step.bind_ok (byte_cons _ _)).trans ?_
    simp only [hpayload, hlast, Bool.false_eq_true, if_false, word_of_group hd (by omega : k ≤ 9) hw,
      toNat_shift_succ]
    rw [show 9 - k = 10 - (k + 1) by omega]
    refine hrest.trans ?_
    have htotal : ((word.toNat + (i % 128).toNat * 2 ^ (7 * k) : Nat) : Int) +
        i / 128 * 2 ^ (7 * (k + 1)) = word.toNat + i * 2 ^ (7 * k) := by
      have hi : i = i % 128 + i / 128 * 128 := by omega
      rw [Int.natCast_add, Int.natCast_mul, Int.toNat_of_nonneg (by omega), Nat.mul_add, Int.pow_add]
      push_cast
      conv_rhs => rw [hi]
      ring
    rw [htotal]

theorem sizeInt_le {i : Int} (hlow : -2 ^ 63 ≤ i) (hhigh : i < 2 ^ 63) : sizeInt i ≤ 10 := by
  have hbits : ∀ n, n < 2 ^ 63 → bitLength n ≤ 63 := by
    intro n hn
    unfold bitLength
    split
    · omega
    · rename_i h
      exact (Nat.log2_lt h).mpr hn
  have hmagnitude : magnitudeBits i ≤ 63 := by
    cases i with
    | ofNat n => exact hbits n (Int.ofNat_lt.mp hhigh)
    | negSucc n => exact hbits n (by omega)
  unfold sizeInt
  omega

/-- An integer that fits into a signed word is read back from its groups. -/
theorem varInt64_ofInt {i : Int} (hlow : -2 ^ 63 ≤ i) (hhigh : i < 2 ^ 63) (rest : List UInt8) :
    varInt64 (ofInt i ++ rest) = (.ok (Int64.ofInt i), rest) := by
  obtain ⟨hpos, hlow', hhigh'⟩ := sizeInt_spec i
  have hsize := sizeInt_le hlow hhigh
  obtain ⟨count, hcount⟩ : ∃ count, sizeInt i = count + 1 := ⟨sizeInt i - 1, by omega⟩
  rw [hcount] at hlow' hhigh'
  have hread := signedGroups_digits count i 0 0 (by omega) hlow' hhigh'
    (by decide) rest
  rw [ofInt_eq, hcount]
  simpa [varInt64, maxWordGroups] using hread

end Didl.Reader

namespace Didl.Varint

theorem length_ofNat_le (n : Nat) : (ofNat n).length ≤ n + 1 := by
  induction n using Nat.strongRecOn with
  | ind n ih =>
    rw [ofNat]
    split
    · simp
    · have hrest := ih (n / 128) (by omega)
      rw [List.length_cons]
      omega

theorem length_ofInt_le {i : Int} (hlow : -2 ^ 63 ≤ i) (hhigh : i < 2 ^ 63) :
    (ofInt i).length ≤ 10 := by
  rw [ofInt_eq, length_marked, length_signedDigits]
  exact Reader.sizeInt_le hlow hhigh

end Didl.Varint

namespace Didl.Entry

theorem readCode_ofInt {i : Int} (hlow : -2 ^ 63 ≤ i) (hhigh : i < 2 ^ 63) (rest : List UInt8) :
    readCode (Varint.ofInt i ++ rest) = (.ok i, rest) := by
  refine (Step.bind_ok (Reader.varInt64_ofInt hlow hhigh rest)).trans ?_
  rw [Int64.toInt_ofInt_of_le hlow hhigh]
  rfl

end Didl.Entry
