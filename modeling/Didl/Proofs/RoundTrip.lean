import Didl.Proofs.Encoding
import Didl.Proofs.Scalars

namespace Didl

/-- The bytes of a value of a composite type whose values hold no others; none if the type or the
value is of another kind. -/
def Composite.bytes? {α : Type} : Composite α → Value → Option (List UInt8)
  | .func .., .func ref => some (funcBytes ref)
  | .service _, .service id => some (referenceBytes id)
  | .future .., .future bytes => some (Writer.blob bytes)
  | _, _ => none

def Composite.reader? {α : Type} : Composite α → Option (Reader Value)
  | .func .. => some (do return .func (← readFunc))
  | .service _ => some (do return .service (← readReference))
  | .future .. => some (do return .future (← Reader.blob))
  | _ => none

theorem Composite.reader_append {α : Type} {c : Composite α} {v : Value} {bytes : List UInt8}
    {x : Reader Value} (hx : c.reader? = some x) (h : c.bytes? v = some bytes)
    (hlt : bytes.length < 2 ^ 64) (rest : List UInt8) : x (bytes ++ rest) = (.ok v, rest) := by
  cases c <;> cases hx <;> cases v <;> cases h
  · exact Step.bind_ok (readFunc_append hlt rest)
  · exact Step.bind_ok (readReference_append hlt rest)
  · rw [Writer.blob, List.length_append] at hlt
    exact Step.bind_ok (Reader.blob_append (by omega) rest)

namespace Value

theorem stops_of_bytes {p : Prim} {v : Value} {bytes : List UInt8} (h : p.bytes? v = some bytes) :
    Stops (.prim p) v := by cases p <;> trivial

theorem stops_of_flat {c : Composite Ty} {x : Reader Value} (h : c.reader? = some x) (v : Value) :
    Stops (.composite c) v := by cases c <;> trivial

theorem encodes_flat {t : Table} {v : Value} {type : Ty} {c : Composite Ty} {bytes : List UInt8}
    (hhead : t.follow type = .ok (.composite c)) (h : c.bytes? v = some bytes) :
    Encodes t v type bytes := by
  cases c <;> cases v <;> cases h
  · exact .func _ hhead
  · exact .service _ hhead
  · exact .future _ hhead

/-- The faults for which a reader may refuse what was written: it is held to limits that a writer
knows nothing of. -/
def IsLimit (e : Fault) : Prop := e = .tooDeep ∨ e = .tooManyElements ∨ e = .malformedVarint

/-- From bytes that were written a read gives a value and takes `cost` elements out of the
allowance, whatever comes after them; if the allowance does not last or what was written is not
`fine` it may be refused for a limit, and if it is `deep` also for want of input. -/
def Yields {α : Type} (d : Decode α) (bytes : List UInt8) (a : α) (cost : Nat)
    (fine deep : Prop) : Prop :=
  ∀ allowance rest, allowance ≤ maxZeroSized →
    (cost ≤ allowance ∧ d allowance (bytes ++ rest) = (.ok (a, allowance - cost), rest)) ∨
      ¬ (cost ≤ allowance ∧ fine) ∧ ∃ e left, d allowance (bytes ++ rest) = (.error e, left) ∧
        (IsLimit e ∨ e = .endOfInput ∧ deep)

namespace Yields
variable {α β : Type} {d : Decode α} {bytes bytes' : List UInt8} {a : α} {b : β} {cost cost' : Nat}
  {fine fine' deep deep' : Prop}

theorem pure (a : α) : Yields (fun allowance => Pure.pure (a, allowance)) [] a 0 fine deep :=
  fun _ _ _ => .inl ⟨Nat.zero_le _, rfl⟩

theorem weaken (h : Yields d bytes a cost fine deep) (hf : fine' → fine) (hd : deep → deep') :
    Yields d bytes a cost fine' deep' := by
  intro allowance rest ha
  rcases h allowance rest ha with hok | ⟨hnot, e, left, herror, he⟩
  · exact .inl hok
  · refine .inr ⟨fun hboth => hnot ⟨hboth.1, hf hboth.2⟩, e, left, herror, ?_⟩
    exact he.imp_right fun hend => ⟨hend.1, hd hend.2⟩

/-- One read after the other, the second with what the first one leaves. -/
theorem andThen {k : α → Decode β} (h : Yields d bytes a cost fine deep)
    (h' : Yields (k a) bytes' b cost' fine deep) :
    Yields (fun allowance => d allowance >>= fun p => k p.1 p.2) (bytes ++ bytes') b (cost + cost')
      fine deep := by
  intro allowance rest ha
  rw [List.append_assoc]
  rcases h allowance (bytes' ++ rest) ha with ⟨hcost, hok⟩ | ⟨hnot, e, left, herror, he⟩
  · have hbind := Step.bind_ok (f := fun p => k p.1 p.2) hok
    rcases h' (allowance - cost) rest (by omega) with ⟨hcost', hok'⟩ | ⟨hnot, e, left, herror, he⟩
    · rw [Nat.sub_sub] at hok'
      exact .inl ⟨by omega, hbind.trans hok'⟩
    · exact .inr ⟨fun hboth => hnot ⟨by omega, hboth.2⟩, e, left, hbind.trans herror, he⟩
  · exact .inr ⟨fun hboth => hnot ⟨by omega, hboth.2⟩, e, left, Step.bind_error herror, he⟩

theorem map (g : α → β) (h : Yields d bytes a cost fine deep) :
    Yields (fun allowance => d allowance >>= fun p => Pure.pure (g p.1, p.2)) bytes (g a) cost
      fine deep := by
  have hthen := h.andThen (k := fun a allowance => Pure.pure (g a, allowance)) (pure (g a))
  rwa [List.append_nil] at hthen

/-- A step that knows nothing of the allowance may come first. -/
theorem after {x : Reader α} {d : α → Decode β} (hx : ∀ rest, x (bytes ++ rest) = (.ok a, rest))
    (h : Yields (d a) bytes' b cost fine deep) :
    Yields (fun allowance => x >>= fun a => d a allowance) (bytes ++ bytes') b cost fine deep := by
  intro allowance rest ha
  have hbind := Step.bind_ok (f := fun a => d a allowance) (hx (bytes' ++ rest))
  rw [List.append_assoc]
  rcases h allowance rest ha with ⟨hcost, hok⟩ | ⟨hnot, e, left, herror, he⟩
  · exact .inl ⟨hcost, hbind.trans hok⟩
  · exact .inr ⟨hnot, e, left, hbind.trans herror, he⟩

/-- A count may come first; it is refused if it does not fit into a word. -/
theorem counted {n : Nat} {d : Nat → Decode α} (h : Yields (d n) bytes a cost fine deep)
    (hlong : 2 ^ 64 ≤ n → ∀ allowance ≤ maxZeroSized, ¬ (cost ≤ allowance ∧ fine)) :
    Yields (fun allowance => Reader.varUInt64 >>= fun count => d count.toNat allowance)
      (Varint.ofNat n ++ bytes) a cost fine deep := by
  by_cases hn : n < 2 ^ 64
  · have hword : (UInt64.ofNat n).toNat = n := by rw [UInt64.toNat_ofNat', Nat.mod_eq_of_lt hn]
    refine after (d := fun count => d count.toNat) (Reader.varUInt64_ofNat hn) ?_
    rwa [hword]
  · intro allowance rest ha
    have hge : 2 ^ 64 ≤ n := Nat.le_of_not_lt hn
    obtain ⟨left, hleft⟩ := Reader.varUInt64_tooLong hge (bytes ++ rest)
    rw [← List.append_assoc] at hleft
    exact .inr ⟨hlong hge allowance ha, _, left, Step.bind_error hleft, .inl (.inr (.inr rfl))⟩

/-- Elements of zero size are taken out of the allowance; others have to take a byte each. -/
theorem charged {zeroSized : Bool} {n : Nat} (h : Yields d bytes a cost fine deep)
    (hbytes : zeroSized = false → n ≤ bytes.length ∨ deep) (hdeep : deep → ¬ fine) :
    Yields (fun allowance => charge zeroSized n allowance >>= d) bytes a
      ((if zeroSized then n else 0) + cost) fine deep := by
  intro allowance rest ha
  cases zeroSized with
  | true =>
    rw [if_pos rfl]
    by_cases hn : n ≤ allowance
    · have hcharge : charge true n allowance (bytes ++ rest) = (.ok (allowance - n), bytes ++ rest) := by
        rw [charge_apply, if_pos rfl, if_pos hn]
      have hbind := Step.bind_ok (f := d) hcharge
      rcases h (allowance - n) rest (by omega) with ⟨hcost, hok⟩ | ⟨hnot, e, left, herror, he⟩
      · rw [Nat.sub_sub] at hok
        exact .inl ⟨by omega, hbind.trans hok⟩
      · exact .inr ⟨fun hboth => hnot ⟨by omega, hboth.2⟩, e, left, hbind.trans herror, he⟩
    · have hcharge : charge true n allowance (bytes ++ rest) = (.error .tooManyElements, bytes ++ rest) := by
        rw [charge_apply, if_pos rfl, if_neg hn]
      exact .inr ⟨fun hboth => hn (by omega), _, _, Step.bind_error hcharge, .inl (.inr (.inl rfl))⟩
  | false =>
    rw [if_neg (by simp), Nat.zero_add]
    by_cases hn : n ≤ (bytes ++ rest).length
    · have hcharge : charge false n allowance (bytes ++ rest) = (.ok allowance, bytes ++ rest) := by
        rw [charge_apply, if_neg (by simp), if_pos hn]
      have hbind := Step.bind_ok (f := d) hcharge
      rcases h allowance rest ha with ⟨hcost, hok⟩ | ⟨hnot, e, left, herror, he⟩
      · exact .inl ⟨hcost, hbind.trans hok⟩
      · exact .inr ⟨hnot, e, left, hbind.trans herror, he⟩
    · have hcharge : charge false n allowance (bytes ++ rest) = (.error .endOfInput, bytes ++ rest) := by
        rw [charge_apply, if_neg (by simp), if_neg hn]
      rw [List.length_append] at hn
      have hd : deep := (hbytes rfl).resolve_left (by omega)
      exact .inr ⟨fun hboth => hdeep hd hboth.2, _, _, Step.bind_error hcharge, .inr ⟨rfl, hd⟩⟩

/-- What is refused throughout may be refused. -/
theorem refused {e : Fault} (he : IsLimit e) (hnot : ∀ allowance ≤ maxZeroSized, ¬ (cost ≤ allowance ∧ fine))
    (h : ∀ allowance rest, ∃ left, d allowance (bytes ++ rest) = (.error e, left)) :
    Yields d bytes a cost fine deep := by
  intro allowance rest ha
  obtain ⟨left, hleft⟩ := h allowance rest
  exact .inr ⟨hnot allowance ha, e, left, hleft, .inl he⟩

end Yields

theorem yields_items {item : Decode Value} {fine deep : Prop} {parts : List (Value × List UInt8)}
    {f : Value → Value} {g : Value → Nat}
    (h : ∀ p ∈ parts, Yields item p.2 (f p.1) (g p.1) fine deep) (done : List Value) :
    Yields (readItems item parts.length done) (parts.flatMap Prod.snd)
      (done.reverse ++ parts.map fun p => f p.1) ((parts.map fun p => g p.1).sum) fine deep := by
  induction parts generalizing done with
  | nil =>
    rw [List.map_nil, List.append_nil]
    exact .pure _
  | cons p parts ih =>
    rw [List.length_cons, funext (readItems_succ item _ done)]
    have hrest := ih (fun q hq => h q (List.mem_cons_of_mem _ hq)) (f p.1 :: done)
    rw [List.reverse_cons, List.append_assoc] at hrest
    exact (h p List.mem_cons_self).andThen
      (k := fun v => readItems item parts.length (v :: done)) hrest

theorem yields_fields {r : Ty → Decode Value} {fine deep : Prop}
    {parts : List (Field Ty × Value × List UInt8)} {f : Value → Ty → Value}
    {g : Value → Ty → Nat}
    (h : ∀ p ∈ parts, Yields (r p.1.type) p.2.2 (f p.2.1 p.1.type) (g p.2.1 p.1.type)
      fine deep) :
    Yields (readFields r (parts.map Prod.fst)) (parts.flatMap (·.2.2))
      (parts.map fun p => (p.1.id, f p.2.1 p.1.type))
      ((parts.map fun p => g p.2.1 p.1.type).sum) fine deep := by
  induction parts with
  | nil => exact .pure _
  | cons p parts ih =>
    have hrest := ih fun q hq => h q (List.mem_cons_of_mem _ hq)
    exact (h p List.mem_cons_self).andThen
      (k := fun v allowance => readFields r (parts.map Prod.fst) allowance >>= fun q =>
        Pure.pure ((p.1.id, v) :: q.1, q.2)) (hrest.map fun vs => (p.1.id, _) :: vs)

section Read
variable {t : Table} {v : Value} {type : Ty} {bytes : List UInt8}

/-- In a table of sound bindings nothing is missing when it is asked for the size of a type. -/
theorem zeroSized_of_closed (hs : t.Sound) (hc : t.Closed type) (limit : Nat) :
    t.zeroSized limit type = .ok (t.isZeroSized limit type) := by
  have hR : IsBisimulation t.canonicalFormer t.canonicalFormer fun u w => u = w ∧ t.Closed u := by
    rintro u _ ⟨rfl, hu⟩
    obtain ⟨f, hf, hm⟩ := hu.former hs
    have hcanonical : t.canonicalFormer u = some f.canonical := by
      rw [Table.canonicalFormer, hf]
      rfl
    refine ⟨_, _, hcanonical, hcanonical, Former.rel_iff.mpr ⟨rfl, List.forall₂_same.mpr ?_⟩⟩
    intro m hmem
    refine ⟨rfl, hm m ?_⟩
    cases f with
    | prim p => exact hmem
    | composite c => exact Composite.mem_members_canonical.mp hmem
  obtain ⟨verdict, hverdict, _⟩ := Table.zeroSized_alike hR ⟨rfl, hc⟩ limit
  rw [hverdict, Table.isZeroSized_eq hverdict]

theorem member_closed (hs : t.Sound) (hc : t.Closed type) {c : Composite Ty}
    (h : t.follow type = .ok (.composite c)) {m : Ty} (hm : m ∈ c.members) : t.Closed m := by
  obtain ⟨f, hf, hmembers⟩ := hc.former hs
  rw [Table.former, h] at hf
  cases hf
  exact hmembers m hm

theorem bytes?_eq_nil {p : Prim} (h : p.bytes? v = some []) : p = .null := by
  cases p <;> cases v <;> simp [Prim.bytes?, Writer.flag, Writer.littleEndian, Writer.text,
    Writer.blob, Varint.ofNat_ne_nil, Varint.ofInt_ne_nil] at h ⊢
  case principal.principal id => cases id <;> simp [referenceBytes] at h

/-- A value that takes no bytes has a type of zero size, or it nests further than was looked. -/
theorem zeroSized_of_empty (hs : t.Sound) (h : Encodes t v type bytes) (hc : t.Closed type)
    (hempty : bytes = []) (limit : Nat) : t.isZeroSized limit type = true ∨ limit ≤ v.depth := by
  induction h generalizing limit with
  | @reserved v type hhead =>
    cases limit with
    | zero => exact .inr (Nat.zero_le _)
    | succ limit => exact .inl (Table.isZeroSized_eq (by rw [Table.zeroSized, hhead]; rfl))
  | @prim v type p bytes hhead hbytes =>
    cases limit with
    | zero => exact .inr (Nat.zero_le _)
    | succ limit =>
      rw [hempty] at hbytes
      rw [bytes?_eq_nil hbytes] at hhead
      exact .inl (Table.isZeroSized_eq (by rw [Table.zeroSized, hhead]; rfl))
  | @record type fields parts hhead hids hfields hparts ih =>
    cases limit with
    | zero => exact .inr (Nat.zero_le _)
    | succ limit =>
      have hclosed : ∀ f ∈ fields, t.Closed f.type := fun f hf =>
        member_closed hs hc hhead (List.mem_map_of_mem hf)
      by_cases hdeep : ∃ p ∈ parts, limit ≤ p.2.1.depth
      · obtain ⟨p, hp, hle⟩ := hdeep
        refine .inr (Nat.lt_of_le_of_lt hle (depth_lt_of_mem ?_))
        simp only [children, List.map_map]
        exact List.mem_map.mpr ⟨p, hp, rfl⟩
      · have hall : ∀ f ∈ fields, t.isZeroSized limit f.type = true := by
          intro f hf
          rw [← (sortBy_perm (·.id) fields).mem_iff, ← hfields] at hf
          obtain ⟨p, hp, rfl⟩ := List.mem_map.mp hf
          have hbytes : p.2.2 = [] := List.flatMap_eq_nil_iff.mp hempty p hp
          rcases ih p hp (hclosed _ (mem_of_parts hfields hp)) hbytes limit with hzero | hle
          · exact hzero
          · exact absurd ⟨p, hp, hle⟩ hdeep
        refine .inl (Table.isZeroSized_eq ?_)
        rw [Table.zeroSized, hhead]
        refine (Table.allFields_eq fun f hf => zeroSized_of_closed hs (hclosed f hf) limit).trans ?_
        rw [List.all_eq_true.mpr hall]
  | service id _ => cases id <;> cases hempty
  | func ref _ => cases ref <;> cases hempty
  | vec | blob | variant | future =>
    exact absurd hempty (List.append_ne_nil_of_left_ne_nil (Varint.ofNat_ne_nil _) _)
  | none | some => cases hempty

theorem follow_of_closed (hs : t.Sound) (hc : t.Closed type) :
    ∃ head, t.follow type = .ok head ∧ t.isByte type = head.isPrim .nat8 := by
  obtain ⟨f, hf, _⟩ := hc.former hs
  obtain ⟨head, hhead, _⟩ := Table.former_eq_some.mp hf
  exact ⟨head, hhead, by simp [Table.isByte, hhead]⟩

/-- Elements that are not of zero size take at least a byte each, or one of them nests too deep for
that to be seen. -/
theorem length_le_items (hs : t.Sound) (hc : t.Closed type)
    (hz : t.isZeroSized (maxDepth + 1) type = false) {parts : List (Value × List UInt8)}
    (hparts : ∀ p ∈ parts, Encodes t p.1 type p.2) :
    parts.length ≤ (parts.flatMap Prod.snd).length ∨
      maxDepth < (Value.vec (parts.map Prod.fst)).depth := by
  by_cases hempty : ∃ p ∈ parts, p.2 = []
  · obtain ⟨p, hp, hnil⟩ := hempty
    rcases zeroSized_of_empty hs (hparts p hp) hc hnil (maxDepth + 1) with hzero | hdeep
    · rw [hz] at hzero
      cases hzero
    · exact .inr (Nat.lt_trans hdeep (depth_lt_of_mem (List.mem_map_of_mem hp)))
  · exact .inl (Reader.length_le_flatMap fun p hp hnil => hempty ⟨p, hp, hnil⟩)

theorem read_vec (hs : t.Sound) {inner : Ty} (hhead : t.follow type = .ok (.composite (.vec inner)))
    (hc : t.Closed inner) (hbyte : t.isByte inner = false) (limit allowance : Nat) :
    read t (limit + 1) type allowance =
      Reader.varUInt64 >>= fun count =>
        charge (t.isZeroSized (maxDepth + 1) inner) count.toNat allowance >>= fun left =>
          readItems (read t limit inner) count.toNat [] left >>= fun p => pure (.vec p.1, p.2) := by
  obtain ⟨head, hinner, hprim⟩ := follow_of_closed hs hc
  rw [read, hhead, Step.ofExcept_ok_bind]
  simp only [hinner, Step.ofExcept_ok_bind, ← hprim, hbyte, zeroSized_of_closed hs hc,
    Bool.false_eq_true, if_false]

theorem read_bytes {inner : Ty} (hs : t.Sound) (hhead : t.follow type = .ok (.composite (.vec inner)))
    (hc : t.Closed inner) (hbyte : t.isByte inner = true) (limit allowance : Nat) :
    read t (limit + 1) type allowance =
      Reader.blob >>= fun bytes => pure (.blob bytes, allowance) := by
  obtain ⟨head, hinner, hprim⟩ := follow_of_closed hs hc
  rw [read, hhead, Step.ofExcept_ok_bind]
  simp only [hinner, Step.ofExcept_ok_bind, ← hprim, hbyte, if_true]

theorem read_flat {c : Composite Ty} {x : Reader Value}
    (hhead : t.follow type = .ok (.composite c)) (hx : c.reader? = some x) (limit allowance : Nat) :
    read t (limit + 1) type allowance = x >>= fun v => pure (v, allowance) := by
  rw [read, hhead, Step.ofExcept_ok_bind]
  cases c <;> cases hx
  · exact Step.map_bind readFunc Value.func fun v => pure (v, allowance)
  · exact Step.map_bind readReference Value.service fun v => pure (v, allowance)
  · exact Step.map_bind Reader.blob Value.future fun v => pure (v, allowance)

def readAlternative (read : Ty → Decode Value) (fields : List (Field Ty)) (tag : Nat) :
    Decode Value := fun allowance =>
  match fields.find? (·.id.toNat == tag) with
  | none => Step.fail (.unknownTag tag)
  | some f => read f.type allowance >>= fun p => pure (.variant f.id p.1, p.2)

theorem read_variant {fields : List (Field Ty)}
    (hhead : t.follow type = .ok (.composite (.variant fields))) (limit allowance : Nat) :
    read t (limit + 1) type allowance = Reader.varUInt64 >>= fun tag =>
      readAlternative (read t limit) fields tag.toNat allowance := by
  rw [read, hhead]
  rfl

theorem follow_of_isByte (h : t.isByte type = true) : t.follow type = .ok (.prim .nat8) := by
  unfold Table.isByte at h
  split at h
  · rename_i head hhead
    cases head with
    | prim p =>
      obtain rfl : p = .nat8 := by simpa [Head.isPrim] using h
      exact hhead
    | composite c => cases h
  · cases h

theorem encodes_byte (hbyte : t.isByte type = true) (h : Encodes t v type bytes) :
    bytes = [v.toByte] ∧ zeroItems t v type = 0 := by
  have hhead := follow_of_isByte hbyte
  refine ⟨?_, by rw [zeroItems.eq_def, hhead]⟩
  cases h
  case prim p hhead' hbytes =>
    rw [hhead] at hhead'
    cases hhead'
    cases v <;> cases hbytes
    rfl
  all_goals simp_all

theorem encodes_bytes (hbyte : t.isByte type = true) {parts : List (Value × List UInt8)}
    (hparts : ∀ p ∈ parts, Encodes t p.1 type p.2) :
    parts.flatMap Prod.snd = (parts.map Prod.fst).map toByte ∧
      ((parts.map Prod.fst).map (zeroItems t · type)).sum = 0 := by
  induction parts with
  | nil => exact ⟨rfl, rfl⟩
  | cons p parts ih =>
    obtain ⟨hbytes, hzero⟩ := ih fun q hq => hparts q (List.mem_cons_of_mem _ hq)
    obtain ⟨hbyte, hnone⟩ := encodes_byte hbyte (hparts p List.mem_cons_self)
    rw [List.flatMap_cons, hbytes, hbyte, List.map_cons, List.map_cons, List.map_cons,
      List.sum_cons, hzero, hnone]
    exact ⟨rfl, rfl⟩

/-- A read of so many levels gives the value that the bytes hold as the type, up to how the reader
holds it, and takes no more of the allowance than the value calls for. It may refuse a value that nests
deeper or holds a number that is too long. -/
def GivesBack (t : Table) (limit : Nat) (v : Value) (type : Ty) (bytes : List UInt8) : Prop :=
  Yields (read t limit type) bytes (normal t v type) (zeroItems t v type)
    (v.depth < limit ∧ v.ShortNumbers) (maxDepth < v.depth)

namespace GivesBack
variable {limit : Nat} {inner : Ty} {fields : List (Field Ty)}

/-- With no level left a read is refused, and it is too deep for any value. -/
theorem of_succ (h : ∀ limit ≤ maxDepth, GivesBack t (limit + 1) v type bytes)
    (hl : limit ≤ maxDepth + 1) : GivesBack t limit v type bytes := by
  cases limit with
  | zero =>
    exact .refused (.inl rfl) (fun _ _ ⟨_, hd, _⟩ => Nat.not_lt_zero _ hd) fun _ _ => ⟨_, rfl⟩
  | succ limit => exact h limit (by omega)

/-- What may go wrong with a value may go wrong with the value that holds it. -/
theorem inside {w : Value} (h : GivesBack t limit w inner bytes) (hw : w ∈ v.children) :
    Yields (read t limit inner) bytes (normal t w inner) (zeroItems t w inner)
      (v.depth < limit + 1 ∧ v.ShortNumbers) (maxDepth < v.depth) := by
  have hlow := depth_lt_of_mem hw
  exact h.weaken (fun hfine => ⟨by omega, hfine.2.child hw⟩) fun hd => by omega

theorem plain {head : Head} (hhead : t.follow type = .ok head) (hv : Stops head v)
    (hread : ∀ allowance rest,
      read t (limit + 1) type allowance (bytes ++ rest) = (.ok (v, allowance), rest)) :
    GivesBack t (limit + 1) v type bytes := by
  rw [GivesBack, normal_stops hhead hv, zeroItems_stops hhead hv]
  exact fun allowance rest _ => .inl ⟨Nat.zero_le _, hread allowance rest⟩

theorem reserved (hhead : t.follow type = .ok (.prim .reserved)) :
    GivesBack t (limit + 1) v type [] := by
  rw [GivesBack, normal_reserved hhead, zeroItems_reserved hhead]
  have hread : read t (limit + 1) type = fun allowance => pure (.reserved, allowance) := by
    funext allowance
    rw [read, hhead]
    rfl
  rw [hread]
  exact .pure _

theorem prim {p : Prim} (hhead : t.follow type = .ok (.prim p)) (hbytes : p.bytes? v = some bytes)
    (hlt : bytes.length < 2 ^ 63) : GivesBack t (limit + 1) v type bytes := by
  have hv := stops_of_bytes hbytes
  rw [GivesBack, normal_stops hhead hv, zeroItems_stops hhead hv]
  intro allowance rest _
  rw [read, hhead, Step.ofExcept_ok_bind]
  rcases Prim.reader_append hbytes (by omega) rest with hok | ⟨hlong, left, herror⟩
  · exact .inl ⟨Nat.zero_le _, Step.bind_ok hok⟩
  · exact .inr ⟨fun hboth => hlong hboth.2.2, _, left, Step.bind_error herror,
      .inl (.inr (.inr rfl))⟩

theorem flat {c : Composite Ty} (hhead : t.follow type = .ok (.composite c)) {x : Reader Value}
    (hx : c.reader? = some x) (hbytes : c.bytes? v = some bytes) (hlt : bytes.length < 2 ^ 63) :
    GivesBack t (limit + 1) v type bytes := by
  refine plain hhead (stops_of_flat hx v) fun allowance rest => ?_
  rw [read_flat hhead hx]
  exact Step.bind_ok (Composite.reader_append hx hbytes (by omega) rest)

theorem opt {w : Value} (hhead : t.follow type = .ok (.composite (.opt inner)))
    (h : GivesBack t limit w inner bytes) :
    GivesBack t (limit + 1) (.opt (some w)) type (1 :: bytes) := by
  rw [GivesBack, normal_some hhead, zeroItems_some hhead]
  have hsome := (h.inside (v := .opt (some w)) (List.mem_singleton_self w)).map
    fun v => Value.opt (some v)
  intro allowance rest ha
  have hread : read t (limit + 1) type allowance (1 :: bytes ++ rest) =
      (read t limit inner allowance >>= fun p => pure (Value.opt (some p.1), p.2))
        (bytes ++ rest) := by
    rw [read, hhead, Step.ofExcept_ok_bind]
    exact Step.bind_ok (x := Reader.presence) (a := true) rfl
  rw [hread]
  exact hsome allowance rest ha

theorem blob {bs : List UInt8} (hs : t.Sound) (hhead : t.follow type = .ok (.composite (.vec inner)))
    (hc : t.Closed inner) (hbyte : t.isByte inner = true) (hlt : (Writer.blob bs).length < 2 ^ 63) :
    GivesBack t (limit + 1) (.blob bs) type (Writer.blob bs) := by
  rw [Writer.blob, List.length_append] at hlt
  refine plain hhead trivial fun allowance rest => ?_
  rw [read_bytes hs hhead hc hbyte]
  exact Step.bind_ok (Reader.blob_append (by omega) rest)

/-- Elements written one by one are read as bytes all at once. -/
theorem byteItems (hs : t.Sound) (hhead : t.follow type = .ok (.composite (.vec inner)))
    (hc : t.Closed inner) (hbyte : t.isByte inner = true) {parts : List (Value × List UInt8)}
    (hparts : ∀ p ∈ parts, Encodes t p.1 inner p.2)
    (hlt : (parts.flatMap Prod.snd).length < 2 ^ 63) :
    GivesBack t (limit + 1) (.vec (parts.map Prod.fst)) type
      (Varint.ofNat parts.length ++ parts.flatMap Prod.snd) := by
  have hzero : t.isZeroSized (maxDepth + 1) inner = false :=
    Table.isZeroSized_eq (by rw [Table.zeroSized, follow_of_isByte hbyte]; rfl)
  obtain ⟨hbytes, hcost⟩ := encodes_bytes hbyte hparts
  rw [GivesBack, normal_vec hhead, zeroItems_vec hhead, hbyte, hzero, hcost, hbytes]
  rw [hbytes] at hlt
  intro allowance rest _
  rw [read_bytes hs hhead hc hbyte]
  have hread := @Reader.blob_append ((parts.map Prod.fst).map toByte) (by omega) rest
  rw [Writer.blob, List.length_map, List.length_map] at hread
  exact .inl ⟨Nat.zero_le _, Step.bind_ok hread⟩

theorem vec (hs : t.Sound) (hhead : t.follow type = .ok (.composite (.vec inner)))
    (hc : t.Closed inner) (hbyte : t.isByte inner = false) {parts : List (Value × List UInt8)}
    (hparts : ∀ p ∈ parts, Encodes t p.1 inner p.2)
    (hlt : (parts.flatMap Prod.snd).length < 2 ^ 63) (hl : limit ≤ maxDepth)
    (hitems : ∀ p ∈ parts, GivesBack t limit p.1 inner p.2) :
    GivesBack t (limit + 1) (.vec (parts.map Prod.fst)) type
      (Varint.ofNat parts.length ++ parts.flatMap Prod.snd) := by
  obtain ⟨v, hv⟩ : ∃ v, v = Value.vec (parts.map Prod.fst) := ⟨_, rfl⟩
  have hvec : Yields (fun allowance => readItems (read t limit inner) parts.length [] allowance >>=
      fun p => pure (Value.vec p.1, p.2)) (parts.flatMap Prod.snd)
      (.vec (parts.map fun p => normal t p.1 inner))
      (parts.map fun p => zeroItems t p.1 inner).sum (v.depth < limit + 1 ∧ v.ShortNumbers)
      (maxDepth < v.depth) :=
    (yields_items (f := (normal t · inner)) (g := (zeroItems t · inner))
      (fun p hp => (hitems p hp).inside (hv ▸ List.mem_map_of_mem hp)) []).map Value.vec
  have hnormal : normal t v type = .vec (parts.map fun p => normal t p.1 inner) := by
    rw [hv, normal_vec hhead, if_neg (by simp [hbyte]), List.map_map]
    rfl
  have hcost : zeroItems t v type = (if t.isZeroSized (maxDepth + 1) inner then parts.length else 0)
      + (parts.map fun p => zeroItems t p.1 inner).sum := by
    rw [hv, zeroItems_vec hhead, List.map_map, List.length_map]
    rfl
  have hshort : t.isZeroSized (maxDepth + 1) inner = false →
      parts.length ≤ (parts.flatMap Prod.snd).length ∨ maxDepth < v.depth :=
    fun hz => hv ▸ length_le_items hs hc hz hparts
  rw [← hv, GivesBack, hnormal, hcost, funext (read_vec hs hhead hc hbyte limit)]
  refine Yields.counted (d := fun n allowance =>
    charge (t.isZeroSized (maxDepth + 1) inner) n allowance >>= fun left =>
      readItems (read t limit inner) n [] left >>= fun p => pure (Value.vec p.1, p.2))
    (hvec.charged hshort fun hdeep hfine => by omega) fun hlong allowance ha ⟨hle, hfine⟩ => ?_
  -- A count that long is that of elements that take no bytes, and they exceed the allowance.
  have hmax : maxZeroSized < 2 ^ 64 := by decide
  cases hz : t.isZeroSized (maxDepth + 1) inner with
  | true =>
    rw [hz, if_pos rfl] at hle
    omega
  | false =>
    rcases hshort hz with hle | hdeep
    · omega
    · exact absurd hfine.1 (by omega)

theorem record (hhead : t.follow type = .ok (.composite (.record fields)))
    (hids : (fields.map (·.id)).Nodup) {parts : List (Field Ty × Value × List UInt8)}
    (hfields : parts.map Prod.fst = sortBy (·.id) fields)
    (hparts : ∀ p ∈ parts, GivesBack t limit p.2.1 p.1.type p.2.2) :
    GivesBack t (limit + 1) (.record (parts.map fun p => (p.1.id, p.2.1))) type
      (parts.flatMap (·.2.2)) := by
  have hfind := find_of_parts hids hfields
  have hasc := parts_ascending hids hfields fun p => normal t p.2.1 p.1.type
  have hread : read t (limit + 1) type = fun allowance =>
      readFields (read t limit) (parts.map Prod.fst) allowance >>= fun p =>
        pure (Value.record (Assoc.ofList p.1), p.2) := by
    funext allowance
    rw [read, hhead, Step.ofExcept_ok_bind, hfields]
  rw [GivesBack, normal_record hhead hfind, zeroItems_record hhead hfind, hread,
    ← Assoc.ofList_of_ascending hasc]
  refine (yields_fields (r := read t limit) (f := normal t) (g := zeroItems t)
    fun p hp => (hparts p hp).inside ?_).map fun vs => Value.record (Assoc.ofList vs)
  simp only [children, List.map_map]
  exact List.mem_map.mpr ⟨p, hp, rfl⟩

theorem variant {id : UInt32} {w : Value} {f : Field Ty}
    (hhead : t.follow type = .ok (.composite (.variant fields)))
    (hf : findField? fields id = some f) (h : GivesBack t limit w f.type bytes) :
    GivesBack t (limit + 1) (.variant id w) type (Varint.ofNat id.toNat ++ bytes) := by
  have hid : f.id = id := by simpa using List.find?_some hf
  have hfind : fields.find? (·.id.toNat == id.toNat) = some f := by
    rw [← find?_sortBy_tag, ← findField?_eq, hf]
  have halternative : readAlternative (read t limit) fields id.toNat =
      fun allowance => read t limit f.type allowance >>= fun p => pure (.variant id p.1, p.2) := by
    funext allowance
    rw [readAlternative, hfind]
    dsimp only
    rw [hid]
  rw [GivesBack, normal_variant hhead hf, zeroItems_variant hhead hf,
    funext (read_variant hhead limit)]
  refine Yields.counted (d := readAlternative (read t limit) fields) ?_
    fun hlong => absurd id.toNat_lt (by omega)
  rw [halternative]
  exact (h.inside (v := .variant id w) (List.mem_singleton_self w)).map fun v => Value.variant id v

end GivesBack

/-- Bytes that hold a value as a type are read as that value. -/
theorem givesBack_of_encodes (hs : t.Sound) (h : Encodes t v type bytes) (hc : t.Closed type)
    (hlt : bytes.length < 2 ^ 63) {limit : Nat} (hl : limit ≤ maxDepth + 1) :
    GivesBack t limit v type bytes := by
  induction h generalizing limit with
  | reserved hhead => exact .of_succ (fun _ _ => .reserved hhead) hl
  | prim hhead hbytes => exact .of_succ (fun _ _ => .prim hhead hbytes hlt) hl
  | none hhead =>
    refine .of_succ (fun limit _ => .plain hhead trivial fun allowance rest => ?_) hl
    rw [read, hhead]
    rfl
  | some hhead _ ih =>
    rw [List.length_cons] at hlt
    have hinner := member_closed hs hc hhead (List.mem_singleton_self _)
    exact .of_succ (fun limit hl => .opt hhead (ih hinner (by omega) (by omega))) hl
  | blob hhead hbyte =>
    have hinner := member_closed hs hc hhead (List.mem_singleton_self _)
    exact .of_succ (fun _ _ => .blob hs hhead hinner hbyte hlt) hl
  | @vec type inner parts hhead hparts ih =>
    rw [List.length_append] at hlt
    have hinner := member_closed hs hc hhead (List.mem_singleton_self inner)
    refine .of_succ (fun limit hl => ?_) hl
    cases hbyte : t.isByte inner with
    | true => exact .byteItems hs hhead hinner hbyte hparts (by omega)
    | false =>
      refine .vec hs hhead hinner hbyte hparts (by omega) hl fun p hp => ?_
      have hle : p.2.length ≤ (parts.flatMap Prod.snd).length :=
        (List.sublist_flatten_of_mem (List.mem_map_of_mem hp)).length_le
      exact ih p hp hinner (by omega) (by omega)
  | @record type fields parts hhead hids hfields _ ih =>
    refine .of_succ (fun limit hl => .record hhead hids hfields fun p hp => ?_) hl
    have hle : p.2.2.length ≤ (parts.flatMap (·.2.2)).length :=
      (List.sublist_flatten_of_mem (List.mem_map_of_mem (f := (·.2.2)) hp)).length_le
    have hmem := mem_of_parts hfields hp
    exact ih p hp (member_closed hs hc hhead (List.mem_map_of_mem hmem)) (by omega) (by omega)
  | variant hhead hf _ ih =>
    rw [List.length_append] at hlt
    have hinner := member_closed hs hc hhead (List.mem_map_of_mem (List.mem_of_find?_eq_some hf))
    exact .of_succ (fun limit hl => .variant hhead hf (ih hinner (by omega) (by omega))) hl
  | func _ hhead | service _ hhead | future _ hhead =>
    exact .of_succ (fun _ _ => .flat hhead rfl rfl hlt) hl

end Read

end Value

end Didl
