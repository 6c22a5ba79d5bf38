import Didl.Proofs.Writing

namespace Didl.Varint

section Sizes

/-- The size of a natural number is the least count of groups that has room for it. -/
theorem isLeast_sizeNat (n : Nat) : IsLeast {k | 1 ≤ k ∧ n < 2 ^ (7 * k)} (sizeNat n) := by
  have hpow : ∀ k, (128 : Nat) ^ k = 2 ^ (7 * k) := fun k => by rw [Nat.pow_mul]
  have hlt := lt_pow_length_ofNat n
  rw [length_ofNat, hpow] at hlt
  refine ⟨⟨by unfold sizeNat; omega, hlt⟩, ?_⟩
  rintro k ⟨hpos, hk⟩
  rw [← length_ofNat]
  exact length_ofNat_minimal hpos (by rwa [hpow])

/-- The size of an integer is the least count of groups that has room for it and its sign. -/
theorem isLeast_sizeInt (i : Int) :
    IsLeast {k : Nat | 1 ≤ k ∧ -(2 : Int) ^ (7 * k - 1) ≤ i ∧ i < 2 ^ (7 * k - 1)} (sizeInt i) := by
  refine ⟨sizeInt_spec i, ?_⟩
  rintro k ⟨hpos, hlow, hhigh⟩
  exact sizeInt_minimal hpos hlow hhigh

theorem sizeInt_of_fits {i : Int} (hlow : -64 ≤ i) (hhigh : i < 64) : sizeInt i = 1 := by
  have hle : sizeInt i ≤ 1 := sizeInt_minimal (by omega) (by simpa using hlow) (by simpa using hhigh)
  have hpos := (sizeInt_spec i).1
  omega

/-- An integer that one group does not hold takes a group more than what is left without its lowest
seven bits. -/
theorem sizeInt_of_not_fits {i : Int} (h : ¬ (-64 ≤ i ∧ i < 64)) : sizeInt i = sizeInt (i / 128) + 1 := by
  have hpow : ∀ k : Nat, 0 < k → (2 : Int) ^ (7 * (k + 1) - 1) = 128 * 2 ^ (7 * k - 1) := by
    intro k hk
    rw [show 7 * (k + 1) - 1 = 7 * k - 1 + 7 by omega, Int.pow_add]
    omega
  apply Nat.le_antisymm
  · obtain ⟨hpos, hlow, hhigh⟩ := sizeInt_spec (i / 128)
    have hsplit := hpow _ hpos
    exact sizeInt_minimal (by omega) (by omega) (by omega)
  · obtain ⟨hpos, hlow, hhigh⟩ := sizeInt_spec i
    obtain ⟨k, hk⟩ : ∃ k, sizeInt i = k + 1 := ⟨sizeInt i - 1, by omega⟩
    rw [hk] at hlow hhigh ⊢
    have hk0 : 0 < k := by
      rcases Nat.eq_zero_or_pos k with rfl | hk0
      · exact absurd ⟨by simpa using hlow, by simpa using hhigh⟩ h
      · exact hk0
    rw [hpow k hk0] at hlow hhigh
    have hrest : sizeInt (i / 128) ≤ k := sizeInt_minimal hk0 (by omega) (by omega)
    omega

theorem ofInt_of_fits {i : Int} (hlow : -64 ≤ i) (hhigh : i < 64) :
    ofInt i = [UInt8.ofNat (i % 128).toNat] := by
  rw [ofInt_eq, sizeInt_of_fits hlow hhigh]
  rfl

theorem ofInt_of_not_fits {i : Int} (h : ¬ (-64 ≤ i ∧ i < 64)) :
    ofInt i = more (UInt8.ofNat (i % 128).toNat) :: ofInt (i / 128) := by
  obtain ⟨hpos, _⟩ := sizeInt_spec (i / 128)
  obtain ⟨count, hcount⟩ : ∃ count, sizeInt (i / 128) = count + 1 :=
    ⟨sizeInt (i / 128) - 1, by omega⟩
  have hne : signedDigits (count + 1) (i / 128) ≠ [] := by
    rw [← List.length_pos_iff, length_signedDigits]
    omega
  rw [ofInt_eq, ofInt_eq, sizeInt_of_not_fits h, hcount, signedDigits_succ, marked_cons hne]

end Sizes

section Words

theorem toNat_rest (word : UInt64) : (word >>> 7).toNat = word.toNat / 128 := by
  rw [UInt64.toNat_shiftRight]
  exact Nat.shiftRight_eq_div_pow word.toNat 7

theorem payload_word (word : UInt64) : payload word.toUInt8 = UInt8.ofNat (word.toNat % 128) := by
  apply UInt8.toNat_inj.mp
  rw [payload, UInt8.toNat_and, UInt64.toNat_toUInt8, toNat_group (Nat.mod_lt _ (by omega))]
  change word.toNat % 2 ^ 8 &&& 2 ^ 7 - 1 = _
  rw [Nat.and_two_pow_sub_one_eq_mod]
  omega

theorem rest_eq_zero (word : UInt64) : (word >>> 7 == 0) = decide (word.toNat < 128) := by
  have hrest := toNat_rest word
  apply Bool.eq_iff_iff.mpr
  rw [beq_iff_eq, decide_eq_true_iff, ← UInt64.toNat_inj, hrest]
  change word.toNat / 128 = 0 ↔ _
  omega

/-- A word is written as the number that it is, as long as there are groups enough. -/
theorem wordGroups_eq {count : Nat} {word : UInt64} (h : word.toNat < 128 ^ (count + 1)) :
    wordGroups (count + 1) word = ofNat word.toNat := by
  induction count generalizing word with
  | zero =>
    have hlast : word.toNat < 128 := by simpa using h
    rw [wordGroups, ofNat, if_pos hlast, rest_eq_zero, if_pos (decide_eq_true hlast), payload_word,
      Nat.mod_eq_of_lt hlast]
  | succ count ih =>
    rw [wordGroups, ofNat, rest_eq_zero, payload_word]
    by_cases hlast : word.toNat < 128
    · rw [if_pos (decide_eq_true hlast), if_pos hlast, Nat.mod_eq_of_lt hlast]
    · have hrest : (word >>> 7).toNat < 128 ^ (count + 1) := by
        rw [toNat_rest]
        exact Nat.div_lt_of_lt_mul (by rwa [Nat.pow_succ, Nat.mul_comm] at h)
      rw [if_neg (by simpa using hlast), if_neg hlast, ih hrest, toNat_rest]

theorem ofUInt64_eq (word : UInt64) : ofUInt64 word = ofNat word.toNat :=
  wordGroups_eq (Nat.lt_trans word.toNat_lt (by decide))

theorem countGroups_eq (count : Nat) (word : UInt64) :
    countGroups count word = (wordGroups count word).length := by
  induction count generalizing word with
  | zero => rfl
  | succ count ih =>
    have hlast : word < 0x80 ↔ word.toNat < 128 := UInt64.lt_iff_toNat_lt
    rw [countGroups, wordGroups, rest_eq_zero]
    by_cases h : word.toNat < 128
    · rw [if_pos (hlast.mpr h), if_pos (decide_eq_true h)]
      rfl
    · rw [if_neg (mt hlast.mp h), if_neg (by simpa using h), ih]
      rfl

theorem sizeUInt64_eq (word : UInt64) : sizeUInt64 word = sizeNat word.toNat := by
  rw [sizeUInt64, countGroups_eq, ← length_ofNat, ← ofUInt64_eq]
  rfl

/-- A shift of a signed word rounds down, as the division of integers does. -/
theorem toInt_rest (word : Int64) : (word >>> 7).toInt = word.toInt / 128 := by
  have hplaces : (7 : Int64).toBitVec.smod 64 = 7#64 := by decide
  change (word >>> 7).toBitVec.toInt = word.toBitVec.toInt / 128
  rw [Int64.toBitVec_shiftRight, hplaces, BitVec.toInt_sshiftRight', Int.shiftRight_eq_div_pow]
  rfl

theorem payload_signed (word : Int64) :
    payload word.toUInt64.toUInt8 = UInt8.ofNat (word.toInt % 128).toNat := by
  have hword : word.toInt = if 2 * word.toUInt64.toNat < 2 ^ 64 then (word.toUInt64.toNat : Int)
      else word.toUInt64.toNat - 2 ^ 64 := BitVec.toInt_eq_toNat_cond word.toBitVec
  rw [payload_word]
  congr 1
  split at hword <;> omega

/-- The last group is the one that holds what is left with its sign. -/
theorem signOnly_rest (word : Int64) :
    signOnly (word >>> 7) (payload word.toUInt64.toUInt8) =
      decide (-64 ≤ word.toInt ∧ word.toInt < 64) := by
  have hrest := toInt_rest word
  have hd : (word.toInt % 128).toNat < 128 := by omega
  have hzero : (word >>> 7 == 0) = decide (word.toInt / 128 = 0) := by
    rw [← hrest]
    exact Bool.eq_iff_iff.mpr (by rw [beq_iff_eq, decide_eq_true_iff, ← Int64.toInt_inj]; rfl)
  have hone : (word >>> 7 == -1) = decide (word.toInt / 128 = -1) := by
    rw [← hrest]
    exact Bool.eq_iff_iff.mpr (by rw [beq_iff_eq, decide_eq_true_iff, ← Int64.toInt_inj]; rfl)
  rw [signOnly, payload_signed, (last_group _ hd).2.2, hzero, hone]
  apply Bool.eq_iff_iff.mpr
  simp only [Bool.or_eq_true, Bool.and_eq_true, Bool.not_eq_true', decide_eq_true_eq,
    decide_eq_false_iff_not]
  omega

/-- A signed word is written as the integer that it is, as long as there are groups enough. -/
theorem signedGroups_eq {count : Nat} {word : Int64}
    (hlow : -(2 : Int) ^ (7 * (count + 1) - 1) ≤ word.toInt)
    (hhigh : word.toInt < 2 ^ (7 * (count + 1) - 1)) :
    signedGroups (count + 1) word = ofInt word.toInt := by
  induction count generalizing word with
  | zero =>
    have hfits : -64 ≤ word.toInt ∧ word.toInt < 64 := ⟨by simpa using hlow, by simpa using hhigh⟩
    rw [signedGroups, signOnly_rest, if_pos (decide_eq_true hfits), payload_signed,
      ofInt_of_fits hfits.1 hfits.2]
  | succ count ih =>
    rw [signedGroups, signOnly_rest, payload_signed]
    by_cases hfits : -64 ≤ word.toInt ∧ word.toInt < 64
    · rw [if_pos (decide_eq_true hfits), ofInt_of_fits hfits.1 hfits.2]
    · have hpow : (2 : Int) ^ (7 * (count + 1 + 1) - 1) = 128 * 2 ^ (7 * (count + 1) - 1) := by
        rw [show 7 * (count + 1 + 1) - 1 = 7 * (count + 1) - 1 + 7 by omega, Int.pow_add]
        omega
      have hrest := toInt_rest word
      rw [if_neg (by simpa using hfits), ih (by omega) (by omega), ofInt_of_not_fits hfits, hrest]

theorem ofInt64_eq (word : Int64) : ofInt64 word = ofInt word.toInt := by
  have hlow := word.le_toInt
  have hhigh := word.toInt_lt
  exact signedGroups_eq (by omega) (by omega)

theorem countSigned_eq (count : Nat) (word : Int64) :
    countSigned count word = (signedGroups count word).length := by
  induction count generalizing word with
  | zero => rfl
  | succ count ih =>
    rw [countSigned, signedGroups, ih]
    split <;> rfl

theorem sizeInt64_eq (word : Int64) : sizeInt64 word = sizeInt word.toInt := by
  rw [sizeInt64, countSigned_eq, ← length_ofInt, ← ofInt64_eq]
  rfl

end Words

end Didl.Varint

namespace Didl.Reader
open Varint

/-- Where what is written of a number is read again or is longer than is allowed, and nothing shorter
is read as the number, its length decides. -/
theorem limited_codec {α : Type} {x : Reader α} {a : α} {written : List UInt8}
    (hround : ∀ rest, x (written ++ rest) = (.ok a, rest) ∨ maxGroups < written.length ∧
      ∃ left, x (written ++ rest) = (.error .malformedVarint, left))
    (hleast : ∀ {bytes rest}, x bytes = (.ok a, rest) → ∃ taken, bytes = taken ++ rest ∧
      written.length ≤ taken.length ∧ taken.length ≤ maxGroups) :
    (∀ rest, written.length ≤ maxGroups → x (written ++ rest) = (.ok a, rest)) ∧
    (∀ rest, maxGroups < written.length →
      ∃ left, x (written ++ rest) = (.error .malformedVarint, left)) ∧
    ∀ bytes rest, x bytes = (.ok a, rest) →
      ∃ taken, bytes = taken ++ rest ∧ written.length ≤ taken.length := by
  refine ⟨fun rest hshort => ?_, fun rest hlong => ?_, fun bytes rest h => ?_⟩
  · exact (hround rest).resolve_right fun hlong => by omega
  · rcases hround rest with hok | ⟨_, herror⟩
    · obtain ⟨taken, _, hle, hmax⟩ := hleast hok
      omega
    · exact herror
  · obtain ⟨taken, hbytes, hle, _⟩ := hleast h
    exact ⟨taken, hbytes, hle⟩

/-- A group that was not refused has room in the word above what is there. -/
theorem group_fits {k : Nat} {word : UInt64} {group : UInt8} (hk : k ≤ 9)
    (hword : word.toNat < 2 ^ (7 * k)) (hgroup : group.toNat < 128)
    (hroom : ¬ (UInt64.ofNat (7 * k) == 63 && decide (group.toUInt64 > 1)) = true) :
    word.toNat + group.toNat * 2 ^ (7 * k) < 2 ^ (7 * (k + 1)) ∧
      (word ||| group.toUInt64 <<< UInt64.ofNat (7 * k)).toNat =
        word.toNat + group.toNat * 2 ^ (7 * k) := by
  have hpow : (2 : Nat) ^ (7 * (k + 1)) = 128 * 2 ^ (7 * k) := by
    rw [Nat.mul_add, Nat.pow_add, Nat.mul_comm]
  have hbelow : word.toNat + group.toNat * 2 ^ (7 * k) < 2 ^ (7 * (k + 1)) := by
    have hle := Nat.mul_le_mul_right (2 ^ (7 * k)) (Nat.le_of_lt_succ hgroup)
    omega
  have hfits : word.toNat + group.toNat * 2 ^ (7 * k) < 2 ^ 64 := by
    rcases Nat.lt_or_eq_of_le hk with hlt | rfl
    · have hle : (2 : Nat) ^ (7 * (k + 1)) ≤ 2 ^ 63 := Nat.pow_le_pow_right (by omega) (by omega)
      omega
    · -- the tenth group: one bit
      have hbit : group.toNat ≤ 1 := by
        by_contra hmore
        apply hroom
        rw [Bool.and_eq_true, decide_eq_true_eq, gt_iff_lt, UInt64.lt_iff_toNat_lt,
          UInt8.toNat_toUInt64]
        exact ⟨by decide, Nat.lt_of_not_le hmore⟩
      omega
  refine ⟨hbelow, ?_⟩
  rw [toNat_or_shift _ _ (by omega) hword, UInt8.toNat_toUInt64, Nat.mod_eq_of_lt hfits]

/-- A group that was refused is more than the word has room for. -/
theorem group_overflows {k : Nat} {word : UInt64} {group : UInt8} (hk : k ≤ 9)
    (hroom : (UInt64.ofNat (7 * k) == 63 && decide (group.toUInt64 > 1)) = true) :
    2 ^ 64 ≤ word.toNat + group.toNat * 2 ^ (7 * k) := by
  obtain ⟨hshift, hgroup⟩ := Bool.and_eq_true_iff.mp hroom
  have hplaces := congrArg UInt64.toNat (beq_iff_eq.mp hshift)
  rw [UInt64.toNat_ofNat'] at hplaces
  change 7 * k % 2 ^ 64 = 63 at hplaces
  obtain rfl : k = 9 := by omega
  have hmore : 1 < group.toNat := by
    rw [decide_eq_true_eq, gt_iff_lt, UInt64.lt_iff_toNat_lt, UInt8.toNat_toUInt64] at hgroup
    exact hgroup
  omega

/-- A word is read from the groups up to the first byte that none follows, on top of what was there
before, unless these are too many or stand for more than there is room for. -/
theorem unsignedGroups_eq_ok {k : Nat} {word result : UInt64} {bytes rest : List UInt8} (hk : k ≤ 10)
    (hword : word.toNat < 2 ^ (7 * k)) :
    unsignedGroups (10 - k) (UInt64.ofNat (7 * k)) word bytes = (.ok result, rest) ↔
      ∃ taken, bytes = taken ++ rest ∧ Whole taken ∧ taken.length ≤ 10 - k ∧
        result.toNat = word.toNat + value (taken.map payload) * 2 ^ (7 * k) := by
  obtain ⟨left, hleft⟩ : ∃ left, 10 - k = left := ⟨_, rfl⟩
  rw [hleft]
  induction left generalizing k word bytes with
  | zero =>
    constructor
    · rintro ⟨⟩
    · rintro ⟨taken, _, hwhole, hlength, _⟩
      exact absurd (List.length_eq_zero_iff.mp (Nat.le_zero.mp hlength)) hwhole.ne_nil
  | succ left ih =>
    cases bytes with
    | nil =>
      constructor
      · rintro ⟨⟩
      · rintro ⟨taken, hbytes, hwhole, _⟩
        exact absurd hwhole (not_whole_nil hbytes)
    | cons b bytes =>
      have hsplit : ∀ taken, value ((b :: taken).map payload) * 2 ^ (7 * k) =
          (payload b).toNat * 2 ^ (7 * k) + value (taken.map payload) * 2 ^ (7 * (k + 1)) := by
        intro taken
        rw [List.map_cons, value, Nat.mul_add 7, Nat.pow_add]
        ring
      have hstep : unsignedGroups (left + 1) (UInt64.ofNat (7 * k)) word (b :: bytes) =
          if (UInt64.ofNat (7 * k) == 63 && decide ((payload b).toUInt64 > 1)) = true then
            (.error .malformedVarint, bytes)
          else if isLast b then
            (.ok (word ||| (payload b).toUInt64 <<< UInt64.ofNat (7 * k)), bytes)
          else unsignedGroups left (UInt64.ofNat (7 * (k + 1)))
            (word ||| (payload b).toUInt64 <<< UInt64.ofNat (7 * k)) bytes := by
        rw [unsignedGroups, ← toNat_shift_succ]
        refine (Step.bind_ok (byte_cons b bytes)).trans ?_
        dsimp only
        split
        · rfl
        · split <;> rfl
      rw [hstep, exists_whole_cons]
      split
      · rename_i hroom
        have hover := @group_overflows k word _ (by omega) hroom
        have hlt := result.toNat_lt
        constructor
        · rintro ⟨⟩
        · rintro (⟨_, _, hresult⟩ | ⟨_, taken, _, _, _, hresult⟩) <;>
          · rw [hsplit] at hresult
            omega
      · rename_i hroom
        obtain ⟨hbelow, hnext⟩ := group_fits (by omega) hword (payload_lt b) hroom
        cases hlast : isLast b with
        | true =>
          rw [if_pos rfl, Prod.mk.injEq, Except.ok.injEq, ← UInt64.toNat_inj, hnext, hsplit]
          simp [value, and_comm, eq_comm]
        | false =>
          rw [if_neg (by simp), ih (by omega) (by rwa [hnext]) (by omega), hnext]
          simp only [hsplit, Nat.add_assoc, reduceCtorEq, false_and, false_or, true_and]

/-- A word is read from the bytes of a number if there are no more than ten and it has room. -/
theorem varUInt64_eq_ok {word : UInt64} {bytes rest : List UInt8} :
    varUInt64 bytes = (.ok word, rest) ↔ ∃ taken, bytes = taken ++ rest ∧ Whole taken ∧
      taken.length ≤ 10 ∧ word.toNat = value (taken.map payload) := by
  simpa [varUInt64, maxWordGroups] using
    @unsignedGroups_eq_ok 0 0 word bytes rest (by omega) (by decide)

/-- What is read of a word takes no fewer bytes than the number that it is is written in. -/
theorem varUInt64_takes {word : UInt64} {bytes rest : List UInt8}
    (h : varUInt64 bytes = (.ok word, rest)) :
    ∃ taken, bytes = taken ++ rest ∧ (ofNat word.toNat).length ≤ taken.length := by
  obtain ⟨taken, hbytes, hwhole, _, hword⟩ := varUInt64_eq_ok.mp h
  have hlt := value_lt (payloads_lt taken)
  rw [List.length_map, ← hword] at hlt
  exact ⟨taken, hbytes, length_ofNat_minimal (List.length_pos_iff.mpr hwhole.ne_nil) hlt⟩

/-- Natural numbers of any size. They are written in the fewest groups that have room for them, are
read back from these whatever comes behind, unless they take more groups than are allowed, and are
never read from fewer. -/
theorem natural_codec (n : Nat) :
    (ofNat n).length = sizeNat n ∧
    IsLeast {k | 1 ≤ k ∧ n < 2 ^ (7 * k)} (sizeNat n) ∧
    (∀ rest, sizeNat n ≤ maxGroups → nat (ofNat n ++ rest) = (.ok n, rest)) ∧
    (∀ rest, maxGroups < sizeNat n →
      ∃ left, nat (ofNat n ++ rest) = (.error .malformedVarint, left)) ∧
    ∀ bytes rest, nat bytes = (.ok n, rest) →
      ∃ taken, bytes = taken ++ rest ∧ sizeNat n ≤ taken.length := by
  refine ⟨Varint.length_ofNat n, isLeast_sizeNat n, ?_⟩
  rw [← Varint.length_ofNat]
  exact limited_codec (nat_ofNat n) nat_takes

/-- Integers of any size, in two's complement with room for the sign. -/
theorem integer_codec (i : Int) :
    (ofInt i).length = sizeInt i ∧
    IsLeast {k : Nat | 1 ≤ k ∧ -(2 : Int) ^ (7 * k - 1) ≤ i ∧ i < 2 ^ (7 * k - 1)} (sizeInt i) ∧
    (∀ rest, sizeInt i ≤ maxGroups → int (ofInt i ++ rest) = (.ok i, rest)) ∧
    (∀ rest, maxGroups < sizeInt i →
      ∃ left, int (ofInt i ++ rest) = (.error .malformedVarint, left)) ∧
    ∀ bytes rest, int bytes = (.ok i, rest) →
      ∃ taken, bytes = taken ++ rest ∧ sizeInt i ≤ taken.length := by
  refine ⟨length_ofInt i, isLeast_sizeInt i, ?_⟩
  rw [← length_ofInt]
  exact limited_codec (int_ofInt i) int_takes

/-- Words are written, measured and read as the numbers that they are. -/
theorem word_codecs_agree :
    (∀ word : Int64, ofInt64 word = ofInt word.toInt ∧ sizeInt64 word = sizeInt word.toInt ∧
      ∀ rest, varInt64 (ofInt64 word ++ rest) = (.ok word, rest)) ∧
    ∀ word : UInt64, ofUInt64 word = ofNat word.toNat ∧ sizeUInt64 word = sizeNat word.toNat ∧
      ∀ rest, varUInt64 (ofUInt64 word ++ rest) = (.ok word, rest) := by
  constructor
  · refine fun word => ⟨ofInt64_eq word, sizeInt64_eq word, fun rest => ?_⟩
    rw [ofInt64_eq, varInt64_ofInt word.le_toInt word.toInt_lt, Int64.ofInt_toInt]
  · refine fun word => ⟨ofUInt64_eq word, sizeUInt64_eq word, fun rest => ?_⟩
    rw [ofUInt64_eq, varUInt64_ofNat word.toNat_lt, UInt64.ofNat_toNat]

/- The least word: nine groups of zeros, and a tenth one that is all sign. -/
example : ofInt64 Int64.minValue =
    [0x80, 0x80, 0x80, 0x80, 0x80, 0x80, 0x80, 0x80, 0x80, 0x7f] := by cbv

end Didl.Reader
