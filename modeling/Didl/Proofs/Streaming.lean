import Didl.Message
import Didl.Proofs.AscendingLists

namespace Didl

namespace Reader
variable {α β : Type} {x : Reader α} {m n : Nat}

/-- Unless the reader wants for input on the bytes `p`, it does the same and leaves the same where
the bytes `s` are behind them. -/
def Alike (x : Reader α) (p s : List UInt8) : Prop :=
  (∃ left, x p = (.error .endOfInput, left)) ∨ x (p ++ s) = ((x p).1, (x p).2 ++ s)

theorem Alike.of_ok {a : α} {p s r : List UInt8} (h : Alike x p s) (hx : x p = (.ok a, r)) :
    x (p ++ s) = (.ok a, r ++ s) := by
  rcases h with ⟨left, hleft⟩ | hboth
  · rw [hx] at hleft
    cases hleft
  · rw [hboth, hx]

theorem Alike.bind {f : α → Reader β} {p s : List UInt8} (hx : Alike x p s)
    (hf : ∀ a mid, Alike (f a) mid s) : Alike (x >>= f) p s := by
  rcases hx with ⟨left, hleft⟩ | hboth
  · exact .inl ⟨left, Step.bind_error hleft⟩
  cases hrun : x p with
  | mk result mid =>
    rw [hrun] at hboth
    cases result with
    | ok a => simpa only [Alike, Step.bind_ok hrun, Step.bind_ok hboth] using hf a mid
    | error e => exact .inr (by rw [Step.bind_error hrun, Step.bind_error hboth])

/-- A reader that takes at least `n` bytes for what it yields and that more bytes behind do not
disturb. -/
structure Streams (n : Nat) (x : Reader α) : Prop where
  taken : ∀ {bytes rest : List UInt8} {a : α}, x bytes = (.ok a, rest) → rest.length + n ≤ bytes.length
  alike : ∀ p s : List UInt8, Alike x p s

namespace Streams

theorem weaken (h : Streams n x) (hle : m ≤ n) : Streams m x :=
  ⟨fun hx => Nat.le_trans (Nat.add_le_add_left hle _) (h.taken hx), h.alike⟩

theorem pure (a : α) : Streams 0 (Pure.pure a : Reader α) := by
  refine ⟨fun hx => ?_, fun _ _ => .inr rfl⟩
  cases hx
  exact Nat.le_refl _

theorem fail (e : Fault) : Streams n (Step.fail e : Reader α) :=
  ⟨nofun, fun _ _ => .inr rfl⟩

theorem ofExcept (r : Except Fault α) : Streams 0 (Step.ofExcept r : Reader α) := by
  refine ⟨fun hx => ?_, fun _ _ => .inr rfl⟩
  obtain ⟨_, rfl⟩ := Step.ofExcept_eq_ok.mp hx
  exact Nat.le_refl _

theorem any (h : Streams n x) : Streams 0 x := h.weaken (Nat.zero_le n)

/-- What is taken first counts, however little is taken afterwards. -/
theorem bind {f : α → Reader β} (hx : Streams n x) (hf : ∀ a, Streams 0 (f a)) :
    Streams n (x >>= f) := by
  constructor
  · intro bytes rest b h
    obtain ⟨a, mid, hmid, h⟩ := Step.bind_eq_ok.mp h
    have hfirst := hx.taken hmid
    have hsecond := (hf a).taken h
    omega
  · exact fun p s => (hx.alike p s).bind fun a mid => (hf a).alike mid s

theorem map {f : α → β} (hx : Streams n x) : Streams n (x >>= fun a => Pure.pure (f a)) :=
  hx.bind fun _ => pure _

/-- A look at how many bytes are left, as readers take it. -/
theorem ifLeft {count : Nat} (hx : Streams 0 x) :
    Streams 0 (do if ← hasLeft count then x else Step.fail .endOfInput) := by
  have hrun : ∀ bytes, (do if ← hasLeft count then x else Step.fail .endOfInput : Reader α) bytes =
      if count ≤ bytes.length then x bytes else (.error .endOfInput, bytes) := by
    intro bytes
    rw [Step.bind_ok (show hasLeft count bytes = (.ok (holds count bytes), bytes) from rfl), holds_eq]
    by_cases hle : count ≤ bytes.length
    · rw [if_pos (decide_eq_true hle), if_pos hle]
    · rw [if_neg (by simpa using hle), if_neg hle]
      rfl
  constructor
  · intro bytes rest a h
    rw [hrun] at h
    split at h
    · exact hx.taken h
    · cases h
  · intro p s
    unfold Alike
    rw [hrun, hrun]
    by_cases hle : count ≤ p.length
    · rw [if_pos hle, if_pos (by rw [List.length_append]; omega)]
      exact hx.alike p s
    · rw [if_neg hle]
      exact .inl ⟨p, rfl⟩

theorem collect {step : Reader α} (h : Streams m step) (count : Nat) (done : List α) :
    Streams 0 (Step.collect step count done) := by
  induction count generalizing done with
  | zero => exact pure done.reverse
  | succ count ih =>
    rw [Step.collect_succ]
    exact h.any.bind fun a => ih (a :: done)

theorem times {step : Reader α} (h : Streams m step) (count : Nat) :
    Streams 0 (Step.times count step) :=
  h.collect count []

end Streams

theorem streams_byte : Streams 1 byte := by
  constructor
  · intro bytes rest b h
    cases bytes with
    | nil => cases h
    | cons b bytes =>
      cases h
      exact Nat.le_refl _
  · intro p s
    cases p with
    | nil => exact .inl ⟨[], rfl⟩
    | cons b p => exact .inr rfl

theorem bytes_of_le {count : Nat} {bs : List UInt8} (h : count ≤ bs.length) :
    bytes count bs = (.ok (bs.take count), bs.drop count) := by
  rw [bytes, holds_eq, if_pos (decide_eq_true h)]

theorem bytes_of_lt {count : Nat} {bs : List UInt8} (h : bs.length < count) :
    bytes count bs = (.error .endOfInput, bs) := by
  rw [bytes, holds_eq, if_neg (by simpa using h)]

theorem streams_bytes (count : Nat) : Streams count (bytes count) := by
  constructor
  · intro bs rest out h
    rcases Nat.lt_or_ge bs.length count with hlt | hle
    · rw [bytes_of_lt hlt] at h
      cases h
    · rw [bytes_of_le hle] at h
      cases h
      rw [List.length_drop]
      omega
  · intro p s
    rcases Nat.lt_or_ge p.length count with hlt | hle
    · exact .inl ⟨p, bytes_of_lt hlt⟩
    · right
      rw [bytes_of_le hle, bytes_of_le (by rw [List.length_append]; omega),
        List.take_append_of_le_length hle, List.drop_append_of_le_length hle]

theorem streams_fixed (count : Nat) : Streams count (fixed count) := (streams_bytes count).map

theorem streams_flag (bad : UInt8 → Fault) : Streams 1 (flag bad) := by
  refine streams_byte.bind fun b => ?_
  split_ifs
  · exact .pure false
  · exact .pure true
  · exact .fail _

theorem streams_unsignedGroups (count : Nat) (shift word : UInt64) :
    Streams 1 (unsignedGroups count shift word) := by
  induction count generalizing shift word with
  | zero => exact .fail _
  | succ count ih =>
    refine streams_byte.bind fun b => ?_
    dsimp only
    split_ifs
    · exact .fail _
    · exact .pure _
    · exact (ih _ _).any

theorem streams_signedGroups (count : Nat) (shift word : UInt64) :
    Streams 1 (signedGroups count shift word) := by
  induction count generalizing shift word with
  | zero => exact .fail _
  | succ count ih =>
    refine streams_byte.bind fun b => ?_
    dsimp only
    split
    · exact .pure _
    · exact (ih _ _).any

theorem streams_varUInt64 : Streams 1 varUInt64 := streams_unsignedGroups _ _ _

theorem streams_varInt64 : Streams 1 varInt64 := streams_signedGroups _ _ _

theorem streams_length : Streams 1 length :=
  streams_varUInt64.bind fun word => (Streams.pure word.toNat).ifLeft

theorem streams_groups (count : Nat) (done : List UInt8) : Streams 1 (groups count done) := by
  induction count generalizing done with
  | zero => exact .fail _
  | succ count ih =>
    refine streams_byte.bind fun b => ?_
    dsimp only
    split
    · exact .pure _
    · exact (ih _).any

theorem streams_blob : Streams 1 blob := streams_length.bind fun count => (streams_bytes count).any

theorem streams_text : Streams 1 text := by
  refine streams_blob.bind fun bs => ?_
  split
  · exact .pure _
  · exact .fail _

end Reader

open Reader

theorem streams_readReference : Streams 1 readReference := by
  refine (streams_flag _).bind fun present => ?_
  split
  · exact streams_blob.map.any
  · exact .pure none

theorem streams_readFunc : Streams 1 readFunc := by
  refine (streams_flag _).bind fun present => ?_
  split
  · exact (streams_readReference.bind fun service => streams_text.map.any).any
  · exact .pure none

def Prim.leastBytes (p : Prim) : Nat := if p = .null ∨ p = .reserved then 0 else 1

theorem Prim.streams_reader (p : Prim) : Streams p.leastBytes p.reader := by
  cases p with
  | null | reserved => exact .pure _
  | empty => exact .fail _
  | bool => exact (streams_flag _).map
  | nat | int => exact ((streams_groups _ _).map).map
  | nat8 => exact streams_byte.map
  | nat16 | float32 | nat32 | nat64 | float64 =>
    exact (((streams_fixed _).map).map).weaken (by decide)
  | int8 => exact (streams_byte.map).map
  | int16 | int32 | int64 => exact ((((streams_fixed _).map).map).map).weaken (by decide)
  | text => exact streams_text.map
  | principal => exact streams_readReference.map

namespace Entry

theorem streams_readCode : Streams 1 readCode := streams_varInt64.map

theorem streams_readCodes : Streams 1 readCodes :=
  streams_length.bind fun count => streams_readCode.times count

theorem streams_readAscending {κ α : Type} [LE κ] [DecidableLE κ] {readKey : Reader κ}
    (hkey : Streams 0 readKey) (item : κ → Int → α) (key : α → κ) (fault : κ → TableFault)
    (count : Nat) (done : List α) :
    Streams 0 (readAscending readKey item key fault count done) := by
  induction count generalizing done with
  | zero => exact .pure _
  | succ count ih =>
    refine hkey.bind fun k => ?_
    cases done with
    | nil => exact streams_readCode.any.bind fun code => ih _
    | cons last done =>
      dsimp only
      split
      · exact .fail _
      · exact streams_readCode.any.bind fun code => ih _

theorem streams_readFieldId : Streams 0 readFieldId := by
  refine streams_varUInt64.any.bind fun word => ?_
  dsimp only
  split
  · exact .pure _
  · exact .fail _

theorem streams_readFields : Streams 1 readFields :=
  streams_length.bind fun count => by
    rw [readFieldsAfter_eq]
    exact streams_readAscending streams_readFieldId _ _ _ count []

theorem streams_readMode : Streams 1 readMode := by
  refine streams_byte.bind fun b => ?_
  split
  · exact .pure _
  · exact .fail _

theorem streams_readMethods : Streams 1 readMethods :=
  streams_length.bind fun count => by
    rw [readMethodsAfter_eq]
    exact streams_readAscending streams_text.any _ _ _ count []

theorem streams_read : Streams 1 read := by
  refine streams_varInt64.bind fun opcode => ?_
  dsimp only
  split_ifs
  · exact streams_readCode.map.any
  · exact streams_readCode.map.any
  · exact streams_readFields.map.any
  · exact streams_readFields.map.any
  · refine streams_readCodes.any.bind fun args => streams_readCodes.any.bind fun results => ?_
    exact streams_length.any.bind fun count => (streams_readMode.times count).map
  · exact streams_readMethods.map.any
  · exact .fail _
  · exact streams_blob.map.any

end Entry

end Didl
