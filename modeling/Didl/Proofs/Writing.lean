import Didl.Proofs.Reading

namespace Didl

namespace Varint

theorem lt_pow_length_ofNat (n : Nat) : n < 128 ^ (ofNat n).length := by
  have hlt := @value_lt ((digits n).map UInt8.ofNat) fun g hg => by
    obtain ⟨d, hd, rfl⟩ := List.mem_map.mp hg
    rw [toNat_group (digits_lt n d hd)]
    exact digits_lt n d hd
  rwa [value_digits, List.length_map, ← length_marked, ← ofNat_eq] at hlt

/-- The size of a number is the count of the groups that it is written in. -/
theorem length_ofNat (n : Nat) : (ofNat n).length = sizeNat n := by
  have hpow : ∀ k, (128 : Nat) ^ k = 2 ^ (7 * k) := fun k => by rw [Nat.pow_mul]
  apply Nat.le_antisymm
  · have hle : bitLength n ≤ 7 * sizeNat n := by unfold sizeNat; omega
    refine length_ofNat_minimal (by unfold sizeNat; omega) ?_
    rw [hpow]
    exact Nat.lt_of_lt_of_le (bitLength_spec n) (Nat.pow_le_pow_right (by omega) hle)
  · have hlt := lt_pow_length_ofNat n
    have hpos := List.length_pos_iff.mpr (ofNat_ne_nil n)
    have hbits : bitLength n ≤ 7 * (ofNat n).length := by
      unfold bitLength
      split
      · omega
      · rename_i hne
        rw [hpow] at hlt
        exact (Nat.log2_lt hne).mpr hlt
    unfold sizeNat
    omega

theorem length_ofInt (i : Int) : (ofInt i).length = sizeInt i := by
  rw [ofInt_eq, length_marked, length_signedDigits]

end Varint

theorem Writer.length_blob (bs : List UInt8) : (blob bs).length = sizeBlob bs.length := by
  rw [blob, List.length_append, Varint.length_ofNat, sizeBlob]

theorem Writer.length_text (s : String) : (text s).length = sizeBlob s.utf8ByteSize := by
  rw [text, length_blob, byteArray_toList]
  rfl

theorem length_referenceBytes (id : Option (List UInt8)) :
    (referenceBytes id).length = referenceSize id := by
  cases id with
  | none => rfl
  | some id => rw [referenceBytes, referenceSize, List.length_cons, Writer.length_blob, Nat.add_comm]

theorem length_funcBytes (ref : Option FuncRef) : (funcBytes ref).length = funcSize ref := by
  cases ref with
  | none => rfl
  | some ref =>
    rw [funcBytes, funcSize, List.length_cons, List.length_append, length_referenceBytes,
      Writer.length_text]
    omega

theorem Prim.size?_eq {p : Prim} {v : Value} {bytes : List UInt8} (h : p.bytes? v = some bytes) :
    p.size? v = some bytes.length := by
  cases p <;> cases v <;> cases h <;>
    simp [Prim.size?, Writer.flag, Reader.length_littleEndian, Varint.length_ofNat,
      Varint.length_ofInt, Writer.length_text, length_referenceBytes]

namespace Value

section Write
variable {t : Table} {type : Ty} {v : Value} {bytes : List UInt8}

theorem write_prim {p : Prim} (h : t.follow type = .ok (.prim p)) (hbytes : p.bytes? v = some bytes)
    (out : Array UInt8) : v.write t type out = (.ok (), out ++ bytes) := by
  have hprim : (fun p : Prim => (p.bytes? v).map Writer.bytes) p = some (Writer.bytes bytes) := by
    simp only [hbytes, Option.map_some]
  cases p <;> cases v <;> cases hbytes <;> rw [write] <;>
    first | rw [dispatch_prim h hprim (by simp) (by simp)]; rfl | simp

theorem lookup_of_nodup {α : Type} {parts : List α} {key : α → UInt32} {value : α → Value}
    (h : (parts.map key).Nodup) {p : α} (hp : p ∈ parts) :
    (parts.map fun p => (key p, value p)).lookup (key p) = some (value p) := by
  induction parts with
  | nil => cases hp
  | cons q parts ih =>
    rw [List.map_cons, List.nodup_cons] at h
    rw [List.map_cons, List.lookup_cons]
    rcases List.mem_cons.mp hp with rfl | hp
    · rw [beq_self_eq_true]
    · have hne : (key p == key q) = false :=
        beq_false_of_ne fun he => h.1 (he ▸ List.mem_map_of_mem hp)
      rw [hne]
      exact ih h.2 hp

/-- The fields of a record that has a value for each are taken in turn. -/
theorem eachField_ok {σ : Type} {items : Assoc UInt32 (Ty → Step σ Unit)}
    {parts : List (Field Ty × Value × List UInt8)} (next : σ → List UInt8 → σ)
    (h : ∀ p ∈ parts, ∃ step, items.lookup p.1.id = some step ∧
      ∀ s, step p.1.type s = (.ok (), next s p.2.2)) (s : σ) :
    eachField items (parts.map Prod.fst) s = (.ok (), parts.foldl (fun s p => next s p.2.2) s) := by
  induction parts generalizing s with
  | nil => rfl
  | cons p parts ih =>
    obtain ⟨step, hstep, hnext⟩ := h p List.mem_cons_self
    rw [List.map_cons, eachField, hstep]
    exact (Step.bind_ok (hnext s)).trans (ih (fun q hq => h q (List.mem_cons_of_mem _ hq)) _)

theorem recordFields_ok {α : Type} {fields : List (Field Ty)} {values : Assoc UInt32 α}
    (h : ∀ p ∈ values, ∃ f ∈ fields, f.id = p.1) :
    recordFields fields values = .ok (sortBy (·.id) fields) := by
  unfold recordFields
  rw [List.find?_eq_none.mpr]
  intro p hp
  obtain ⟨f, hf, hid⟩ := h p hp
  simpa using ⟨f, hf, hid⟩

theorem append_append (out : Array UInt8) (bs cs : List UInt8) :
    out ++ bs ++ cs = out ++ (bs ++ cs) := by
  apply Array.toList_inj.mp
  simp

theorem foldl_append {α : Type} (f : α → List UInt8) (parts : List α) (out : Array UInt8) :
    parts.foldl (fun (out : Array UInt8) p => out ++ f p) out = out ++ parts.flatMap f := by
  induction parts generalizing out with
  | nil => simp
  | cons p parts ih => rw [List.foldl_cons, ih, append_append, List.flatMap_cons]

theorem nodup_of_parts {fields : List (Field Ty)} {parts : List (Field Ty × Value × List UInt8)}
    (hids : (fields.map (·.id)).Nodup) (hfields : parts.map Prod.fst = sortBy (·.id) fields) :
    (parts.map (·.1.id)).Nodup := by
  have hsorted := (List.Perm.map (·.id) (sortBy_perm (·.id) fields)).nodup_iff.mpr hids
  rwa [← hfields, List.map_map] at hsorted

theorem declared_of_parts {fields : List (Field Ty)} {parts : List (Field Ty × Value × List UInt8)}
    {value : Field Ty × Value × List UInt8 → Value}
    (hfields : parts.map Prod.fst = sortBy (·.id) fields) :
    ∀ p ∈ parts.map (fun p => (p.1.id, value p)), ∃ f ∈ fields, f.id = p.1 := by
  intro q hq
  obtain ⟨p, hp, rfl⟩ := List.mem_map.mp hq
  exact ⟨p.1, mem_of_parts hfields hp, rfl⟩

theorem writeItems_ok {inner : Ty} {parts : List (Value × List UInt8)}
    (h : ∀ p ∈ parts, ∀ out, p.1.write t inner out = (.ok (), out ++ p.2)) (out : Array UInt8) :
    writeItems t (parts.map Prod.fst) inner out = (.ok (), out ++ parts.flatMap Prod.snd) := by
  induction parts generalizing out with
  | nil => simp [writeItems, Step.pure_apply]
  | cons p parts ih =>
    rw [List.map_cons, writeItems]
    simp only [h p List.mem_cons_self]
    rw [ih (fun q hq => h q (List.mem_cons_of_mem _ hq)), append_append, List.flatMap_cons]

/-- What holds a value as a type is what a writer appends. -/
theorem write_of_encodes (h : Encodes t v type bytes) (out : Array UInt8) :
    v.write t type out = (.ok (), out ++ bytes) := by
  induction h generalizing out with
  | reserved hhead => simpa using write_reserved hhead _ out
  | prim hhead hbytes => exact write_prim hhead hbytes out
  | none hhead =>
    rw [write, dispatch_composite hhead]
    · simp [Writer.byte]
    all_goals simp
  | some hhead _ ih =>
    rw [write, dispatch_composite hhead]
    dsimp only
    refine (Step.bind_ok (show Writer.byte 1 out = (.ok (), out.push 1) from rfl)).trans ?_
    simp [ih]
  | @blob bs type inner hhead hbyte =>
    rw [write, dispatch_composite hhead]
    · dsimp only
      rw [follow_of_isByte hbyte, Step.ofExcept_ok_bind]
      simp [Head.isPrim, Writer.bytes]
    all_goals simp
  | @vec type inner parts hhead _ ih =>
    rw [write, dispatch_composite hhead]
    dsimp only
    refine (Step.bind_ok (x := Writer.bytes _) rfl).trans ?_
    rw [writeItems_ok ih, append_append, List.length_map]
  | @record type fields parts hhead hids hfields _ ih =>
    rw [write, dispatch_composite hhead]
    dsimp only
    rw [recordFields_ok (declared_of_parts hfields), Step.ofExcept_ok_bind, ← hfields]
    refine (eachField_ok (fun (out : Array UInt8) bs => out ++ bs) (fun p hp => ?_) out).trans ?_
    · rw [lookup_writers, lookup_of_nodup (nodup_of_parts hids hfields) hp]
      exact ⟨_, rfl, ih p hp⟩
    · rw [foldl_append]
  | variant hhead hf _ ih =>
    rw [write, dispatch_composite hhead]
    dsimp only
    rw [hf]
    dsimp only
    refine (Step.bind_ok (x := Writer.bytes _) rfl).trans ?_
    rw [ih, append_append]
  | func ref hhead =>
    rw [write, dispatch_composite hhead]
    · simp [Writer.bytes]
    all_goals simp
  | service id hhead =>
    rw [write, dispatch_composite hhead]
    · simp [Writer.bytes]
    all_goals simp
  | future bs hhead =>
    rw [write, dispatch_composite hhead]
    · simp [Writer.bytes]
    all_goals simp

end Write

end Value

end Didl
