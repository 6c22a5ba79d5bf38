import Didl.Proofs.ReadAlike
import Didl.Proofs.Streaming

namespace Didl

namespace Value
open Reader (Streams)
variable {read : Ty → Decode Value}

theorem streams_items {item : Decode Value} (h : ∀ allowance, Streams 0 (item allowance))
    (count : Nat) (done : List Value) (allowance : Nat) :
    Streams 0 (readItems item count done allowance) := by
  induction count generalizing done allowance with
  | zero => exact .pure _
  | succ count ih =>
    rw [readItems_succ]
    exact (h allowance).bind fun p => ih (p.1 :: done) p.2

theorem streams_fields (h : ∀ type allowance, Streams 0 (read type allowance))
    (fields : List (Field Ty)) (allowance : Nat) : Streams 0 (readFields read fields allowance) := by
  induction fields generalizing allowance with
  | nil => exact .pure _
  | cons f fields ih => exact (h f.type allowance).bind fun p => (ih p.2).map

theorem streams_charge (zeroSized : Bool) (count allowance : Nat) :
    Streams 0 (charge zeroSized count allowance) := by
  cases zeroSized with
  | true =>
    rw [charge, if_pos rfl]
    split
    · exact .pure _
    · exact .fail _
  | false => exact (Streams.pure allowance).ifLeft

/-- A reader of values never tells what it has read from what is behind. -/
theorem streams_read (t : Table) (limit : Nat) (type : Ty) (allowance : Nat) :
    Streams 0 (Value.read t limit type allowance) := by
  induction limit generalizing type allowance with
  | zero => exact .fail .tooDeep
  | succ limit ih =>
    refine (Streams.ofExcept _).bind fun head => ?_
    cases head with
    | prim p => exact p.streams_reader.any.map
    | composite c =>
      cases c with
      | opt inner =>
        refine (Reader.streams_flag _).any.bind fun present => ?_
        split
        · exact (ih inner allowance).map
        · exact .pure _
      | vec inner =>
        refine (Streams.ofExcept _).bind fun head => ?_
        split
        · exact Reader.streams_blob.any.map
        · refine Reader.streams_varUInt64.any.bind fun count => ?_
          refine (Streams.ofExcept _).bind fun zeroSized => ?_
          refine (streams_charge zeroSized _ allowance).bind fun left => ?_
          exact (streams_items (ih inner) _ [] left).map
      | record fields => exact (streams_fields ih _ allowance).map
      | variant fields =>
        refine Reader.streams_varUInt64.any.bind fun tag => ?_
        dsimp only
        split
        · exact .fail _
        · exact (ih _ allowance).map
      | func args results modes => exact streams_readFunc.any.map
      | service methods => exact streams_readReference.any.map
      | future opcode payload => exact Reader.streams_blob.any.map

end Value

namespace Message
open Reader (Streams)

theorem streams_readAll (t : Table) (types : List Ty) (allowance : Nat) :
    Streams 0 (readAll t types allowance) := by
  induction types generalizing allowance with
  | nil => exact .pure _
  | cons type types ih =>
    exact (Value.streams_read t _ type allowance).bind fun p => (ih p.2).map

/-- There is no tag in fewer than four bytes. -/
theorem readPrelude_short {p : List UInt8} (h : p.length < 4) :
    Table.readPrelude p = (.error .badMagic, p) := by
  have hbytes : Reader.bytes magic.length p = (.error .endOfInput, p) := Reader.bytes_of_lt h
  have htag : (Reader.bytes magic.length).orFail .badMagic p = (.error .badMagic, p) := by
    simp only [Step.orFail, hbytes]
  exact Step.bind_error htag

theorem readPrelude_alike {p : List UInt8} (h : 4 ≤ p.length) (s : List UInt8) :
    Reader.Alike Table.readPrelude p s := by
  have hbytes : Reader.bytes magic.length p = (.ok (p.take 4), p.drop 4) := Reader.bytes_of_le h
  have htag : Reader.Alike ((Reader.bytes magic.length).orFail .badMagic) p s := by
    have hmore := ((Reader.streams_bytes magic.length).alike p s).of_ok hbytes
    exact .inr (by rw [Step.orFail_eq_ok.mpr hmore, Step.orFail_eq_ok.mpr hbytes])
  refine htag.bind fun tag mid => Streams.alike (n := 0) ?_ mid s
  split
  · refine Reader.streams_length.any.bind fun count => ?_
    refine (Entry.streams_read.times count).bind fun raw => ?_
    refine (Streams.ofExcept _).bind fun _ => (Streams.ofExcept _).bind fun _ => ?_
    refine Entry.streams_readCodes.any.bind fun codes => (Streams.ofExcept _).bind fun _ => ?_
    exact .ofExcept _
  · exact .fail _

theorem reader_alike {p : List UInt8} (h : 4 ≤ p.length) (s : List UInt8) :
    Reader.Alike reader p s :=
  (readPrelude_alike h s).bind fun built mid =>
    ((streams_readAll built.1 built.2 _).map).alike mid s

theorem decode_of_rest {bytes rest : List UInt8} {message : Table × List (Ty × Value)}
    (h : reader bytes = (.ok message, rest)) (hrest : rest ≠ []) :
    decode bytes = .error (.trailingBytes rest.length) := by
  obtain ⟨b, behind, rfl⟩ := List.exists_cons_of_ne_nil hrest
  rw [decode, decodeWithTable, h]
  rfl

theorem decode_of_error {bytes left : List UInt8} {e : Fault}
    (h : reader bytes = (.error e, left)) : decode bytes = .error e := by
  rw [decode, decodeWithTable, h]
  rfl

/-- A message is not the beginning of another one, and a beginning of it wants for input, unless it
ends within the tag. -/
theorem decode_delimited {bytes : List UInt8} {args : List (Ty × Value)}
    (h : decode bytes = .ok args) :
    (∀ e, e ≠ [] → decode (bytes ++ e) = .error (.trailingBytes e.length)) ∧
      ∀ p s, bytes = p ++ s → s ≠ [] →
        decode p = .error (if p.length < 4 then .badMagic else .endOfInput) := by
  obtain ⟨t, hdecode⟩ := decodeWithTable_of_decode h
  have hread := reader_of_decodeWithTable hdecode
  constructor
  · intro e he
    have htag : 4 ≤ bytes.length := by
      by_contra hshort
      rw [reader, Step.bind_error (readPrelude_short (Nat.lt_of_not_le hshort))] at hread
      cases hread
    exact decode_of_rest ((reader_alike htag e).of_ok hread) he
  · rintro p s rfl hs
    rcases Nat.lt_or_ge p.length 4 with hshort | htag
    · rw [if_pos hshort]
      exact decode_of_error (Step.bind_error (readPrelude_short hshort))
    rw [if_neg (Nat.not_lt.mpr htag)]
    rcases reader_alike htag s with ⟨left, hleft⟩ | hboth
    · exact decode_of_error hleft
    · -- what is behind would have been left
      rw [hread] at hboth
      exact absurd (List.append_eq_nil_iff.mp (congrArg Prod.snd hboth).symm).2 hs

/-- A message of one text, with a byte behind it, cut off in the text and cut off in the tag. -/
theorem decode_delimited_pair :
    decode [68, 73, 68, 76, 1, 108, 1, 0, 113, 1, 0, 2, 104, 105] =
      .ok [(.composite (.record [⟨0, none, .prim .text⟩]), .record [(0, .text "hi")])] ∧
    decode [68, 73, 68, 76, 1, 108, 1, 0, 113, 1, 0, 2, 104, 105, 0] =
      .error (.trailingBytes 1) ∧
    decode [68, 73, 68, 76, 1, 108, 1, 0, 113, 1, 0, 2, 104] = .error .endOfInput ∧
    decode [68, 73, 68] = .error .badMagic := by
  have h : decode [68, 73, 68, 76, 1, 108, 1, 0, 113, 1, 0, 2, 104, 105] =
      .ok [(.composite (.record [⟨0, none, .prim .text⟩]), .record [(0, .text "hi")])] := by cbv
  obtain ⟨hbehind, hcut⟩ := decode_delimited h
  exact ⟨h, hbehind [0] (by decide), hcut _ [105] rfl (by decide), hcut _ _ rfl (by decide)⟩

end Message

end Didl
