import Didl.Proofs.EntryFormat
import Didl.Proofs.Values

namespace Didl

namespace Reader

theorem littleEndian_littleEndian (count n : Nat) :
    littleEndian (Writer.littleEndian count n) = n % 256 ^ count := by
  induction count generalizing n with
  | zero => rw [Nat.pow_zero, Nat.mod_one]; rfl
  | succ count ih =>
    rw [Writer.littleEndian, littleEndian, ih, Nat.pow_succ', Nat.mod_mul, UInt8.toNat_ofNat']

theorem length_littleEndian (count n : Nat) : (Writer.littleEndian count n).length = count := by
  induction count generalizing n with
  | zero => rfl
  | succ count ih => rw [Writer.littleEndian, List.length_cons, ih]

theorem fixed_append {count n : Nat} (h : n < 256 ^ count) (rest : List UInt8) :
    fixed count (Writer.littleEndian count n ++ rest) = (.ok n, rest) := by
  have hbytes := bytes_append (Writer.littleEndian count n) rest
  rw [length_littleEndian] at hbytes
  refine (Step.bind_ok hbytes).trans ?_
  rw [littleEndian_littleEndian, Nat.mod_eq_of_lt h]
  rfl

theorem uint16_append (n : UInt16) (rest : List UInt8) :
    uint16 (Writer.littleEndian 2 n.toNat ++ rest) = (.ok n, rest) := by
  refine (Step.bind_ok (fixed_append n.toNat_lt rest)).trans ?_
  rw [UInt16.ofNat_toNat]
  rfl

theorem uint32_append (n : UInt32) (rest : List UInt8) :
    uint32 (Writer.littleEndian 4 n.toNat ++ rest) = (.ok n, rest) := by
  refine (Step.bind_ok (fixed_append n.toNat_lt rest)).trans ?_
  rw [UInt32.ofNat_toNat]
  rfl

theorem uint64_append (n : UInt64) (rest : List UInt8) :
    uint64 (Writer.littleEndian 8 n.toNat ++ rest) = (.ok n, rest) := by
  refine (Step.bind_ok (fixed_append n.toNat_lt rest)).trans ?_
  rw [UInt64.ofNat_toNat]
  rfl

end Reader

theorem readReference_append {id : Option (List UInt8)} (h : (referenceBytes id).length < 2 ^ 64)
    (rest : List UInt8) : readReference (referenceBytes id ++ rest) = (.ok id, rest) := by
  cases id with
  | none => rfl
  | some id =>
    simp only [referenceBytes, Writer.blob, List.length_cons, List.length_append] at h
    exact Step.bind_ok (Reader.blob_append (by omega) rest)

theorem readFunc_append {ref : Option FuncRef} (h : (funcBytes ref).length < 2 ^ 64)
    (rest : List UInt8) : readFunc (funcBytes ref ++ rest) = (.ok ref, rest) := by
  cases ref with
  | none => rfl
  | some ref =>
    simp only [funcBytes, Writer.text, Writer.blob, List.length_cons, List.length_append] at h
    rw [funcBytes, List.cons_append, List.append_assoc]
    refine (Step.bind_ok (x := Reader.presence) (a := true) rfl).trans ?_
    refine (Step.bind_ok (readReference_append (by omega) _)).trans ?_
    exact Step.bind_ok (Reader.text_append (by omega) rest)

namespace Prim

/-- A primitive value is read back, or it is a number that is too long. -/
theorem reader_append {p : Prim} {v : Value} {bytes : List UInt8} (h : p.bytes? v = some bytes)
    (hlt : bytes.length < 2 ^ 64) (rest : List UInt8) :
    p.reader (bytes ++ rest) = (.ok v, rest) ∨
      (¬ v.ShortNumbers ∧ ∃ left, p.reader (bytes ++ rest) = (.error .malformedVarint, left)) := by
  cases p <;> cases v <;> cases h
  case nat.nat.refl n =>
    rcases Reader.nat_ofNat n rest with hok | ⟨hlong, left, herror⟩
    · exact .inl (Step.bind_ok hok)
    · exact .inr ⟨fun hs => Nat.not_lt.mpr (hs.nat n .refl) hlong, left, Step.bind_error herror⟩
  case int.int.refl i =>
    rcases Reader.int_ofInt i rest with hok | ⟨hlong, left, herror⟩
    · exact .inl (Step.bind_ok hok)
    · exact .inr ⟨fun hs => Nat.not_lt.mpr (hs.int i .refl) hlong, left, Step.bind_error herror⟩
  case text.text.refl s =>
    simp only [Writer.text, Writer.blob, List.length_append] at hlt
    exact .inl (Step.bind_ok (Reader.text_append (by omega) rest))
  case principal.principal.refl id => exact .inl (Step.bind_ok (readReference_append hlt rest))
  case null.null.refl => exact .inl rfl
  case bool.bool.refl b => cases b <;> exact .inl rfl
  case nat8.nat8.refl n => exact .inl rfl
  case int8.int8.refl i => exact .inl rfl
  case nat16.nat16.refl n => exact .inl (Step.bind_ok (Reader.uint16_append n rest))
  case nat32.nat32.refl n => exact .inl (Step.bind_ok (Reader.uint32_append n rest))
  case nat64.nat64.refl n => exact .inl (Step.bind_ok (Reader.uint64_append n rest))
  case int16.int16.refl i =>
    exact .inl (Step.bind_ok (Step.bind_ok (Reader.uint16_append i.toUInt16 rest)))
  case int32.int32.refl i =>
    exact .inl (Step.bind_ok (Step.bind_ok (Reader.uint32_append i.toUInt32 rest)))
  case int64.int64.refl i =>
    exact .inl (Step.bind_ok (Step.bind_ok (Reader.uint64_append i.toUInt64 rest)))
  case float32.float32.refl bits => exact .inl (Step.bind_ok (Reader.uint32_append bits rest))
  case float64.float64.refl bits => exact .inl (Step.bind_ok (Reader.uint64_append bits rest))

end Prim

end Didl
