import Didl.Proofs.Numbers

namespace Didl

def Cursor.ofIndex (data : List UInt8) (index : Nat) : Cursor := ⟨data, data.drop index⟩

/-- A reader yields a result at an index and leaves the place so many bytes behind it. -/
def Reader.ReadsAt {α : Type} (x : Reader α) (data : List UInt8) (index : Nat) (a : α)
    (count : Nat) : Prop :=
  index + count ≤ data.length ∧
    (Cursor.ofIndex data index).run x = (.ok a, Cursor.ofIndex data (index + count))

/-- Where bytes taken tell what a reader yields, it yields at an index what they tell that stand
there. -/
theorem Reader.readsAt_iff {α : Type} {x : Reader α} {P : List UInt8 → α → Prop}
    (htold : ∀ {a bytes rest}, x bytes = (.ok a, rest) ↔ ∃ taken, bytes = taken ++ rest ∧ P taken a)
    {data : List UInt8} {index count : Nat} {a : α} :
    x.ReadsAt data index a count ↔ ∃ before taken rest, data = before ++ (taken ++ rest) ∧
      before.length = index ∧ taken.length = count ∧ P taken a := by
  have hx : ∀ taken rest, x (taken ++ rest) = (.ok a, rest) ↔ P taken a := by
    intro taken rest
    rw [htold]
    constructor
    · rintro ⟨taken', htaken, hP⟩
      rwa [List.append_cancel_right htaken]
    · exact fun hP => ⟨taken, rfl, hP⟩
  constructor
  · rintro ⟨hle, hrun⟩
    obtain ⟨hresult, hplace⟩ := Prod.mk.inj hrun
    have hdrop : data.drop index = (data.drop index).take count ++ data.drop (index + count) := by
      rw [← List.drop_drop, List.take_append_drop]
    refine ⟨data.take index, (data.drop index).take count, data.drop (index + count), ?_, ?_, ?_, ?_⟩
    · rw [← hdrop, List.take_append_drop]
    · rw [List.length_take]
      omega
    · rw [List.length_take, List.length_drop]
      omega
    · rw [← hx _ (data.drop (index + count)), ← hdrop]
      exact Prod.ext hresult (congrArg Cursor.rest hplace)
  · rintro ⟨before, taken, rest, rfl, rfl, rfl, hP⟩
    refine ⟨by simp, ?_⟩
    unfold Cursor.run Cursor.ofIndex
    simp [(hx taken rest).mpr hP]

end Didl

namespace Didl.Varint
open Reader (payloads_lt)

theorem Whole.isLast_of_concat {front : List UInt8} {b : UInt8} (h : Whole (front ++ [b])) :
    isLast b = true := by
  induction front with
  | nil =>
    cases h with
    | last hlast => exact hlast
    | more _ h => exact absurd rfl h.ne_nil
  | cons c front ih =>
    generalize hrest : front ++ [b] = rest at ih
    rw [List.cons_append, hrest] at h
    cases h with
    | last => simp at hrest
    | more _ h => exact ih h

theorem byte_forall {P : UInt8 → Prop} (h : ∀ n < 256, P (UInt8.ofNat n)) (b : UInt8) : P b := by
  have hb := h b.toNat b.toNat_lt
  rwa [UInt8.ofNat_toNat] at hb

theorem last_byte {b : UInt8} : isLast b = true → payload b = b := by
  revert b
  apply byte_forall
  decide +kernel

theorem more_byte {b : UInt8} : isLast b = false → more (payload b) = b := by
  revert b
  apply byte_forall
  decide +kernel

theorem signedValue_group {b : UInt8} (h : isLast b = true) :
    -64 ≤ signedValue [b] ∧ signedValue [b] < 64 ∧ signedValue [b] % 128 = b.toNat := by
  have hlt := payload_lt b
  rw [last_byte h] at hlt
  have hnegative := (last_group b.toNat hlt).2.2
  rw [UInt8.ofNat_toNat] at hnegative
  rw [signedValue_eq List.getLast?_singleton, hnegative]
  simp only [decide_eq_true_eq, List.length_singleton, value]
  split <;> omega

/-- The bytes of a number are the digits of the integer that they stand for, as many as there are. -/
theorem marked_signedDigits {taken : List UInt8} (h : Whole taken) :
    marked (signedDigits taken.length (signedValue (taken.map payload))) = taken := by
  induction h with
  | @last b hlast =>
    obtain ⟨_, _, hmod⟩ := signedValue_group hlast
    simp only [List.map_cons, List.map_nil, List.length_singleton, last_byte hlast, signedDigits,
      hmod, marked, Int.toNat_natCast, UInt8.ofNat_toNat]
  | @more b bs hmore hwhole ih =>
    have hb := payload_lt b
    have hne : bs.map payload ≠ [] := by simpa using hwhole.ne_nil
    obtain ⟨count, hcount⟩ : ∃ count, bs.length = count + 1 :=
      ⟨bs.length - 1, by have := List.length_pos_iff.mpr hwhole.ne_nil; omega⟩
    have hrest : signedDigits (count + 1) (signedValue (bs.map payload)) ≠ [] := by
      rw [← List.length_pos_iff, length_signedDigits]
      omega
    have hvalue := signedValue_cons (payload b) hne
    have hlow : (signedValue ((b :: bs).map payload) % 128).toNat = (payload b).toNat := by
      rw [List.map_cons]
      omega
    have hhigh : signedValue ((b :: bs).map payload) / 128 = signedValue (bs.map payload) := by
      rw [List.map_cons]
      omega
    rw [hcount] at ih
    rw [List.length_cons, hcount, signedDigits_succ, hlow, hhigh, marked_cons hrest, ih,
      UInt8.ofNat_toNat, more_byte hmore]

/-- The last group adds its own value in its place to the natural number in front of it. -/
theorem signedValue_concat (gs : List UInt8) (g : UInt8) :
    signedValue (gs ++ [g]) = value gs + 128 ^ gs.length * signedValue [g] := by
  induction gs with
  | nil => simp [value]
  | cons g' gs ih =>
    rw [List.cons_append, signedValue_cons g' (by simp), ih, value, List.length_cons, Int.pow_succ]
    push_cast
    ring

/-- Ten groups of which the last one is nothing but a sign stand for a number that a signed word
holds, and so do fewer. -/
theorem signedValue_fits {taken : List UInt8} (h : Whole taken) (hlength : taken.length ≤ 10)
    (htenth : ∀ b, taken[9]? = some b → isLast b = true → b = 0x00 ∨ b = 0x7f) :
    -2 ^ 63 ≤ signedValue (taken.map payload) ∧ signedValue (taken.map payload) < 2 ^ 63 := by
  have hne : taken.map payload ≠ [] := by simpa using h.ne_nil
  by_cases hshort : taken.length ≤ 9
  · obtain ⟨hlow, hhigh⟩ := signedValue_bounds hne (payloads_lt taken)
    rw [List.length_map] at hlow hhigh
    have hpow : (2 : Int) ^ (7 * taken.length - 1) ≤ 2 ^ 63 :=
      pow_le_pow_right₀ (by omega) (by omega)
    omega
  · obtain ⟨front, b, rfl⟩ : ∃ front b, taken = front ++ [b] :=
      ⟨taken.dropLast, taken.getLast h.ne_nil, (List.dropLast_append_getLast h.ne_nil).symm⟩
    have hfront : front.length = 9 := by
      rw [List.length_append, List.length_singleton] at hlength hshort
      omega
    have hlow := value_lt (payloads_lt front)
    rw [List.length_map, hfront] at hlow
    rw [List.map_append, List.map_singleton, signedValue_concat, List.length_map, hfront]
    rcases htenth b (by simp [← hfront]) h.isLast_of_concat with rfl | rfl
    · rw [show signedValue [payload 0x00] = 0 by decide]
      omega
    · rw [show signedValue [payload 0x7f] = -1 by decide]
      omega

end Didl.Varint

namespace Didl.Reader
open Varint

/-- What a signed word is read from ends where a number does. -/
theorem whole_of_signedGroups {count : Nat} {shift word : UInt64} {result : Int64}
    {bytes rest : List UInt8} (h : signedGroups count shift word bytes = (.ok result, rest)) :
    ∃ taken, bytes = taken ++ rest ∧ Whole taken ∧ taken.length ≤ count := by
  induction count generalizing shift word bytes with
  | zero => cases h
  | succ count ih =>
    obtain ⟨b, bytes₁, hb, h⟩ := Step.bind_eq_ok.mp h
    rw [byte_eq_ok.mp hb]
    dsimp only at h
    split at h
    · rename_i hlast
      cases h
      exact ⟨[b], rfl, .last hlast, by simp⟩
    · rename_i hlast
      obtain ⟨taken, rfl, hwhole, hlength⟩ := ih h
      exact ⟨b :: taken, rfl, .more (by simpa using hlast) hwhole, by simpa using hlength⟩

/-- The bytes of an integer, if they are no more than ten, are read as the word that it is modulo
2^64. -/
theorem varInt64_whole {taken : List UInt8} (h : Whole taken) (hlength : taken.length ≤ 10)
    (rest : List UInt8) : varInt64 (taken ++ rest) =
      (.ok (Int64.ofInt (signedValue (taken.map payload))), rest) := by
  have hne : taken.map payload ≠ [] := by simpa using h.ne_nil
  obtain ⟨hlow, hhigh⟩ := signedValue_bounds hne (payloads_lt taken)
  obtain ⟨count, hcount⟩ : ∃ count, taken.length = count + 1 :=
    ⟨taken.length - 1, by have := List.length_pos_iff.mpr h.ne_nil; omega⟩
  rw [List.length_map, hcount] at hlow hhigh
  have hread := signedGroups_digits count _ 0 0 (by omega) hlow hhigh (by decide) rest
  rw [← hcount, marked_signedDigits h] at hread
  simpa [varInt64, maxWordGroups] using hread

theorem varInt64_eq_ok {word : Int64} {bytes rest : List UInt8} :
    varInt64 bytes = (.ok word, rest) ↔ ∃ taken, bytes = taken ++ rest ∧ Whole taken ∧
      taken.length ≤ 10 ∧ word = Int64.ofInt (signedValue (taken.map payload)) := by
  constructor
  · intro h
    obtain ⟨taken, rfl, hwhole, hlength⟩ := whole_of_signedGroups h
    have hread := varInt64_whole hwhole hlength rest
    rw [h] at hread
    cases hread
    exact ⟨taken, rfl, hwhole, hlength, rfl⟩
  · rintro ⟨taken, rfl, hwhole, hlength, rfl⟩
    exact varInt64_whole hwhole hlength rest

/-- An integer that a signed word holds is the word's own value. -/
theorem toInt_ofInt_eq {i : Int} : (Int64.ofInt i).toInt = i ↔ -2 ^ 63 ≤ i ∧ i < 2 ^ 63 := by
  constructor
  · intro h
    rw [← h]
    exact ⟨Int64.le_toInt _, Int64.toInt_lt _⟩
  · rintro ⟨hlow, hhigh⟩
    exact Int64.toInt_ofInt_of_le hlow hhigh

/-- An unsigned word is read where a number of any size is, from ten bytes at most, if it has room for
the number. -/
theorem varUInt64_agrees (data : List UInt8) (index k n : Nat) :
    (∃ word : UInt64, word.toNat = n ∧ varUInt64.ReadsAt data index word k) ↔
      nat.ReadsAt data index n k ∧ k ≤ 10 ∧ n < 2 ^ 64 := by
  rw [readsAt_iff nat_eq_ok]
  constructor
  · rintro ⟨word, rfl, h⟩
    obtain ⟨before, taken, rest, hdata, hbefore, htaken, hwhole, hlength, hword⟩ :=
      (readsAt_iff varUInt64_eq_ok).mp h
    have hallowed : taken.length ≤ maxGroups := Nat.le_trans hlength (by decide)
    exact ⟨⟨before, taken, rest, hdata, hbefore, htaken, hwhole, hallowed, hword⟩,
      htaken ▸ hlength, word.toNat_lt⟩
  · rintro ⟨⟨before, taken, rest, hdata, hbefore, rfl, hwhole, _, hn⟩, hlength, hroom⟩
    have hword := UInt64.toNat_ofNat_of_lt' hroom
    exact ⟨UInt64.ofNat n, hword, (readsAt_iff varUInt64_eq_ok).mpr
      ⟨before, taken, rest, hdata, hbefore, rfl, hwhole, hlength, hword.trans hn⟩⟩

/-- A signed word is read where an integer of any size is, from ten bytes at most, and it is that
integer modulo 2^64. -/
theorem varInt64_readsAt {data : List UInt8} {index k : Nat} {word : Int64} :
    varInt64.ReadsAt data index word k ↔
      k ≤ 10 ∧ ∃ i, int.ReadsAt data index i k ∧ word = Int64.ofInt i := by
  simp only [readsAt_iff varInt64_eq_ok, readsAt_iff int_eq_ok]
  constructor
  · rintro ⟨before, taken, rest, hdata, hbefore, rfl, hwhole, hlength, hword⟩
    have hallowed : taken.length ≤ maxGroups := Nat.le_trans hlength (by decide)
    exact ⟨hlength, _, ⟨before, taken, rest, hdata, hbefore, rfl, hwhole, hallowed, rfl⟩, hword⟩
  · rintro ⟨hlength, i, ⟨before, taken, rest, hdata, hbefore, rfl, hwhole, _, rfl⟩, rfl⟩
    exact ⟨before, taken, rest, hdata, hbefore, rfl, hwhole, hlength, rfl⟩

/-- The tenth byte from an index on is nothing but a sign, if a number can end there. -/
def TenthSigns (data : List UInt8) (index : Nat) : Prop :=
  ∀ b, data[index + 9]? = some b → isLast b = true → b = 0x00 ∨ b = 0x7f

/-- An integer that ends before its tenth byte, or in one that is nothing but a sign, fits. -/
theorem fits_of_readsAt {data : List UInt8} {index k : Nat} {i : Int}
    (h : int.ReadsAt data index i k) (hlength : k ≤ 10) (htenth : k = 10 → TenthSigns data index) :
    -2 ^ 63 ≤ i ∧ i < 2 ^ 63 := by
  obtain ⟨before, taken, rest, rfl, rfl, rfl, hwhole, _, rfl⟩ := (readsAt_iff int_eq_ok).mp h
  refine signedValue_fits hwhole hlength fun b hb hlast => ?_
  obtain ⟨hnine, _⟩ := List.getElem?_eq_some_iff.mp hb
  refine htenth (by omega) b ?_ hlast
  rw [List.getElem?_append_right (by omega), List.getElem?_append_left (by omega)]
  simpa using hb

/-- A signed word is the integer that is read in its place modulo 2^64. Unless a tenth byte is more
than a sign, the two are read alike: words are read from ten bytes at most, and each is the integer
itself. -/
theorem varInt64_agrees (data : List UInt8) (index k : Nat) :
    (∀ word : Int64, varInt64.ReadsAt data index word k ↔
      k ≤ 10 ∧ ∃ i, int.ReadsAt data index i k ∧ word = Int64.ofInt i) ∧
    ((k = 10 → TenthSigns data index) → ∀ i : Int,
      (∃ word : Int64, word.toInt = i ∧ varInt64.ReadsAt data index word k) ↔
        int.ReadsAt data index i k ∧ k ≤ 10 ∧ -2 ^ 63 ≤ i ∧ i < 2 ^ 63) := by
  refine ⟨fun word => varInt64_readsAt, fun htenth i => ?_⟩
  constructor
  · rintro ⟨word, rfl, h⟩
    obtain ⟨hlength, i, hint, rfl⟩ := varInt64_readsAt.mp h
    have hfits := fits_of_readsAt hint hlength htenth
    rw [toInt_ofInt_eq.mpr hfits]
    exact ⟨hint, hlength, hfits⟩
  · rintro ⟨hint, hlength, hfits⟩
    exact ⟨Int64.ofInt i, toInt_ofInt_eq.mpr hfits, varInt64_readsAt.mpr ⟨hlength, i, hint, rfl⟩⟩

/-- The least word is read from nine groups of zeros and a tenth one that is all sign. -/
theorem varInt64_agrees_least :
    TenthSigns [0x80, 0x80, 0x80, 0x80, 0x80, 0x80, 0x80, 0x80, 0x80, 0x7f] 0 ∧
    ∃ word : Int64, word.toInt = -2 ^ 63 ∧ varInt64.ReadsAt
      [0x80, 0x80, 0x80, 0x80, 0x80, 0x80, 0x80, 0x80, 0x80, 0x7f] 0 word 10 := by
  have hsigns : TenthSigns [0x80, 0x80, 0x80, 0x80, 0x80, 0x80, 0x80, 0x80, 0x80, 0x7f] 0 := by
    rintro b ⟨⟩ _
    exact .inr rfl
  have hint : int.ReadsAt [0x80, 0x80, 0x80, 0x80, 0x80, 0x80, 0x80, 0x80, 0x80, 0x7f] 0
      (-2 ^ 63) 10 := ⟨by decide, by rfl⟩
  exact ⟨hsigns, ((varInt64_agrees _ 0 10).2 (fun _ => hsigns) (-2 ^ 63)).mpr
    ⟨hint, by decide, by decide, by decide⟩⟩

/-- A tenth group of one bit that is not a sign: the integer is 2^63, and the word is the least
one. -/
theorem varInt64_wraps : ¬ ∀ (data : List UInt8) (index k : Nat) (i : Int),
    (∃ word : Int64, word.toInt = i ∧ varInt64.ReadsAt data index word k) ↔
      int.ReadsAt data index i k ∧ k ≤ 10 ∧ -2 ^ 63 ≤ i ∧ i < 2 ^ 63 := by
  intro h
  have hword : varInt64.ReadsAt [0x80, 0x80, 0x80, 0x80, 0x80, 0x80, 0x80, 0x80, 0x80, 0x01] 0
      Int64.minValue 10 := ⟨by decide, by rfl⟩
  obtain ⟨⟨_, hint⟩, _⟩ := (h _ 0 10 (-2 ^ 63)).mp ⟨Int64.minValue, by decide, hword⟩
  have hresult : ((2 ^ 63 : Int)) = -2 ^ 63 := Except.ok.inj (congrArg Prod.fst hint)
  omega

end Didl.Reader
