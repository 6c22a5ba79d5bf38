import Didl.Proofs.Reencoding
import Didl.Proofs.Streaming

namespace Didl

/-- Binding a key again only takes from a sum over what is bound. -/
theorem Assoc.sum_ofList_le {κ α : Type} [LT κ] [DecidableLT κ] (g : α → Nat)
    (pairs : List (κ × α)) :
    ((Assoc.ofList pairs).map fun p => g p.2).sum ≤ (pairs.map fun p => g p.2).sum := by
  have hinsert : ∀ (k : κ) (a : α) (map : Assoc κ α),
      ((Assoc.insert k a map).map fun p => g p.2).sum ≤ g a + (map.map fun p => g p.2).sum := by
    intro k a map
    induction map with
    | nil => exact Nat.le_refl _
    | cons p map ih =>
      rw [Assoc.insert]
      split_ifs <;> simp only [List.map_cons, List.sum_cons] <;> omega
  have hfold : ∀ map : Assoc κ α,
      ((pairs.foldl (fun map p => Assoc.insert p.1 p.2 map) map).map fun p => g p.2).sum ≤
        (map.map fun p => g p.2).sum + (pairs.map fun p => g p.2).sum := by
    induction pairs with
    | nil => exact fun map => Nat.le_refl _
    | cons p pairs ih =>
      intro map
      have hrest := ih (Assoc.insert p.1 p.2 map)
      have hfirst := hinsert p.1 p.2 map
      simp only [List.foldl_cons, List.map_cons, List.sum_cons] at hrest ⊢
      omega
  exact Nat.le_trans (hfold []) (Nat.le_of_eq (Nat.zero_add _))

namespace Table
variable {t : Table} {type : Ty} {limit : Nat}

/-- The fewest bytes that a value of a type takes, as far as `limit` levels tell. -/
def leastBytes (t : Table) (limit : Nat) (type : Ty) : Nat :=
  if t.isZeroSized limit type then 0 else 1

theorem leastBytes_le : t.leastBytes limit type ≤ 1 := by
  unfold leastBytes
  split <;> omega

theorem leastBytes_prim {p : Prim} (h : t.follow type = .ok (.prim p)) :
    t.leastBytes (limit + 1) type = p.leastBytes := by
  cases p <;> simp [leastBytes, isZeroSized, zeroSized, h, Prim.leastBytes, bind, Except.bind,
    Except.toOption]

/-- A record takes no bytes where none of its fields does. -/
theorem isZeroSized_record {fields : List (Field Ty)}
    (h : t.follow type = .ok (.composite (.record fields))) :
    t.isZeroSized (limit + 1) type = fields.all fun f => t.isZeroSized limit f.type := by
  have hall : (zeroSized.allFields (t.zeroSized limit) fields).toOption.getD false =
      fields.all fun f => t.isZeroSized limit f.type := by
    clear h
    induction fields with
    | nil => rfl
    | cons f fields ih =>
      rw [zeroSized.allFields, List.all_cons, ← ih, isZeroSized]
      rcases t.zeroSized limit f.type with e | _ | _ <;> rfl
  rw [← hall, isZeroSized, zeroSized, h]
  rfl

end Table

namespace Value
open Table

/-- How many elements a value has in the `vec`s in it, at every level. -/
def elements (v : Value) : Nat :=
  v.items.length + (v.children.attach.map fun w => elements w.1).sum
termination_by sizeOf v
decreasing_by exact sizeOf_lt_of_mem w.2

theorem elements_eq (v : Value) : v.elements = v.items.length + (v.children.map elements).sum := by
  rw [elements.eq_1 v, List.attach_map_val (f := elements)]

theorem elements_of_leaf {v : Value} (h : v.children = []) : v.elements = 0 := by
  have hitems : v.items = [] := by
    cases v <;> first | rfl | exact h
  rw [elements_eq, hitems, h]
  rfl

theorem elements_of_child {v w : Value} (hitems : v.items = []) (h : v.children = [w]) :
    v.elements = w.elements := by
  rw [elements_eq, hitems, h]
  simp

/-- Whether what a reader yields is paid for out of the allowance and with the bytes that were taken:
once for each element, and `least` times more. -/
def Pays (least : Nat) (read : Decode Value) : Prop :=
  ∀ ⦃allowance left : Nat⦄ ⦃bytes rest : List UInt8⦄ ⦃v : Value⦄,
    read allowance bytes = (.ok (v, left), rest) →
      v.elements + least + left + rest.length ≤ allowance + bytes.length

theorem Pays.weaken {m n : Nat} {read : Decode Value} (h : Pays n read) (hle : m ≤ n) :
    Pays m read := by
  intro allowance left bytes rest v hread
  have hpaid := h hread
  omega

section Read
variable {t : Table} {type inner : Ty} {fields : List (Field Ty)} {limit k : Nat}

/-- A value that holds no others costs only what it takes. -/
theorem leaf_pays {α : Type} {x : Reader α} {f : α → Value} {n : Nat} (hx : Reader.Streams n x)
    (hf : ∀ {bytes rest a}, x bytes = (.ok a, rest) → (f a).children = []) :
    Pays n fun allowance => x >>= fun a => pure (f a, allowance) := by
  intro allowance left bytes rest v h
  obtain ⟨a, mid, ha, h⟩ := Step.bind_eq_ok.mp h
  cases h
  have htaken := hx.taken ha
  rw [elements_of_leaf (hf ha)]
  omega

theorem opt_pays (hhead : t.follow type = .ok (.composite (.opt inner)))
    (hinner : Pays 0 (read t limit inner)) : Pays 1 (read t (limit + 1) type) := by
  intro allowance left bytes rest v h
  rw [read, hhead, Step.ofExcept_ok_bind] at h
  obtain ⟨present, bytes₁, hpresent, h⟩ := Step.bind_eq_ok.mp h
  have htaken := (Reader.streams_flag _).taken hpresent
  split at h
  · obtain ⟨⟨w, left'⟩, bytes₂, hw, h⟩ := Step.bind_eq_ok.mp h
    cases h
    have hpaid := hinner hw
    rw [elements_of_child rfl rfl]
    omega
  · cases h
    rw [elements_of_leaf rfl]
    omega

/-- The elements of a `vec` are paid for in advance or take a byte each. -/
theorem charge_covers {zeroSized : Bool} {count allowance left : Nat} {bytes rest : List UInt8}
    (hzero : t.zeroSized (maxDepth + 1) inner = .ok zeroSized)
    (h : charge zeroSized count allowance bytes = (.ok left, rest)) :
    count + left ≤ allowance + count * t.leastBytes (maxDepth + 1) inner ∧ rest = bytes := by
  obtain ⟨rfl, hpaid⟩ := charge_eq_ok.mp h
  refine ⟨?_, rfl⟩
  rw [leastBytes, isZeroSized_eq hzero]
  cases zeroSized with
  | true =>
    rw [if_pos rfl] at hpaid
    omega
  | false =>
    rw [if_neg (by simp)] at hpaid ⊢
    omega

theorem items_paid {item : Decode Value} {least : Nat} (hitem : Pays least item)
    {count allowance left : Nat} {done vs : List Value} {bytes rest : List UInt8}
    (h : readItems item count done allowance bytes = (.ok (vs, left), rest)) :
    vs.length = done.length + count ∧
      (vs.map elements).sum + count * least + left + rest.length ≤
        (done.map elements).sum + allowance + bytes.length := by
  induction count generalizing done allowance bytes with
  | zero =>
    cases h
    simp
  | succ count ih =>
    rw [readItems_succ] at h
    obtain ⟨⟨v, mid⟩, bytes₁, hfirst, h⟩ := Step.bind_eq_ok.mp h
    have hpaid := hitem hfirst
    obtain ⟨hlength, hrest⟩ := ih h
    simp only [List.map_cons, List.sum_cons, List.length_cons] at hlength hrest
    rw [Nat.succ_mul]
    omega

theorem vec_pays (hhead : t.follow type = .ok (.composite (.vec inner)))
    (hitem : Pays (t.leastBytes (maxDepth + 1) inner) (read t limit inner)) :
    Pays 1 (read t (limit + 1) type) := by
  intro allowance left bytes rest v h
  rw [read, hhead, Step.ofExcept_ok_bind] at h
  obtain ⟨head, bytes₁, hinner, h⟩ := Step.bind_eq_ok.mp h
  obtain ⟨_, rfl⟩ := Step.ofExcept_eq_ok.mp hinner
  split at h
  · exact leaf_pays Reader.streams_blob (fun _ => rfl) h
  · obtain ⟨count, bytes₂, hcount, h⟩ := Step.bind_eq_ok.mp h
    obtain ⟨zero, bytes₃, hasked, h⟩ := Step.bind_eq_ok.mp h
    obtain ⟨hzero, rfl⟩ := Step.ofExcept_eq_ok.mp hasked
    obtain ⟨mid, bytes₄, hcharge, h⟩ := Step.bind_eq_ok.mp h
    obtain ⟨⟨vs, left'⟩, bytes₅, hvs, h⟩ := Step.bind_eq_ok.mp h
    cases h
    have htaken := Reader.streams_varUInt64.taken hcount
    obtain ⟨hcovers, rfl⟩ := charge_covers hzero hcharge
    obtain ⟨hlength, hpaid⟩ := items_paid hitem hvs
    have helements : (vec vs).elements = vs.length + (vs.map elements).sum := elements_eq _
    simp only [List.length_nil, List.map_nil, List.sum_nil] at hlength hpaid
    omega

theorem fields_paid (hread : ∀ type, Pays (t.leastBytes k type) (read t limit type))
    {vs : List (UInt32 × Value)} {allowance left : Nat} {bytes rest : List UInt8}
    (h : readFields (read t limit) fields allowance bytes = (.ok (vs, left), rest)) :
    (vs.map fun p => p.2.elements).sum +
      (if fields.all fun f => t.isZeroSized k f.type then 0 else 1) + left + rest.length ≤
        allowance + bytes.length := by
  induction fields generalizing vs allowance bytes with
  | nil =>
    cases h
    simp
  | cons f fields ih =>
    obtain ⟨⟨v, mid⟩, bytes₁, hfirst, h⟩ := Step.bind_eq_ok.mp h
    obtain ⟨⟨ws, left'⟩, bytes₂, hrest, h⟩ := Step.bind_eq_ok.mp h
    cases h
    have hpaid := hread f.type hfirst
    have hrest := ih hrest
    rw [leastBytes] at hpaid
    simp only [List.map_cons, List.sum_cons, List.all_cons, Bool.and_eq_true]
    split_ifs at hpaid hrest ⊢ <;> first | omega | simp_all

theorem record_pays (hhead : t.follow type = .ok (.composite (.record fields)))
    (hread : ∀ type, Pays (t.leastBytes k type) (read t limit type)) :
    Pays (t.leastBytes (k + 1) type) (read t (limit + 1) type) := by
  intro allowance left bytes rest v h
  rw [read, hhead, Step.ofExcept_ok_bind] at h
  obtain ⟨⟨vs, left'⟩, bytes₁, hvs, h⟩ := Step.bind_eq_ok.mp h
  cases h
  have hpaid := fields_paid hread hvs
  rw [(sortBy_perm (·.id) fields).all_eq, ← isZeroSized_record hhead, ← leastBytes] at hpaid
  -- a field that comes twice is kept once
  have hsum := Assoc.sum_ofList_le elements vs
  have helements : (record (Assoc.ofList vs)).elements =
      0 + (((Assoc.ofList vs).map Prod.snd).map elements).sum := elements_eq _
  rw [List.map_map] at helements
  simp only [Function.comp_def] at helements
  omega

theorem variant_pays (hhead : t.follow type = .ok (.composite (.variant fields)))
    (hread : ∀ type, Pays 0 (read t limit type)) : Pays 1 (read t (limit + 1) type) := by
  intro allowance left bytes rest v h
  rw [read_variant hhead] at h
  obtain ⟨tag, bytes₁, htag, h⟩ := Step.bind_eq_ok.mp h
  have htaken := Reader.streams_varUInt64.taken htag
  rw [readAlternative] at h
  cases hfind : fields.find? (·.id.toNat == tag.toNat) with
  | none =>
    rw [hfind] at h
    cases h
  | some f =>
    rw [hfind] at h
    obtain ⟨⟨w, left'⟩, bytes₂, hw, h⟩ := Step.bind_eq_ok.mp h
    cases h
    have hpaid := hread f.type hw
    rw [elements_of_child (w := w) rfl rfl]
    omega

/-- Every value is paid for, and once more than for its elements if it is no value of no size. -/
theorem read_pays (hlimit : limit ≤ maxDepth + 1) (hle : limit ≤ k) :
    Pays (t.leastBytes k type) (read t limit type) := by
  induction limit generalizing type k with
  | zero =>
    intro allowance left bytes rest v h
    cases h
  | succ limit ih =>
    obtain ⟨k, rfl⟩ : ∃ n, k = n + 1 := ⟨k - 1, by omega⟩
    have hread : ∀ type, Pays (t.leastBytes k type) (read t limit type) := fun type =>
      ih (by omega) (by omega)
    have hany : ∀ type, Pays 0 (read t limit type) := fun type =>
      (hread type).weaken (Nat.zero_le _)
    intro allowance left bytes rest v h
    cases hhead : t.follow type with
    | error e =>
      rw [read, hhead] at h
      cases h
    | ok head =>
      cases head with
      | prim p =>
        rw [read, hhead, Step.ofExcept_ok_bind] at h
        rw [leastBytes_prim hhead]
        exact leaf_pays p.streams_reader (fun hw => (prim_reader_eq_ok hw).2.1) h
      | composite c =>
        cases c with
        | opt inner => exact (opt_pays hhead (hany inner)).weaken leastBytes_le h
        | vec inner =>
          -- elements are asked for their size at full depth, however deep the `vec` is
          exact (vec_pays hhead (ih (by omega) (by omega))).weaken leastBytes_le h
        | record fields => exact record_pays hhead hread h
        | variant fields => exact (variant_pays hhead hany).weaken leastBytes_le h
        | func args results modes =>
          rw [read, hhead, Step.ofExcept_ok_bind] at h
          exact (leaf_pays streams_readFunc fun _ => rfl).weaken leastBytes_le h
        | service methods =>
          rw [read, hhead, Step.ofExcept_ok_bind] at h
          exact (leaf_pays streams_readReference fun _ => rfl).weaken leastBytes_le h
        | future opcode payload =>
          rw [read, hhead, Step.ofExcept_ok_bind] at h
          exact (leaf_pays Reader.streams_blob fun _ => rfl).weaken leastBytes_le h

end Read

end Value

namespace Message
open Value Table

theorem args_paid {t : Table} {types : List Ty} {args : List (Ty × Value)} {allowance left : Nat}
    {bytes rest : List UInt8}
    (h : readAll t types allowance bytes = (.ok (args, left), rest)) :
    (args.map fun p => p.2.elements).sum + left + rest.length ≤ allowance + bytes.length := by
  induction types generalizing args allowance bytes with
  | nil =>
    cases h
    simp
  | cons type types ih =>
    obtain ⟨⟨v, left₁⟩, bytes₁, hv, h⟩ := Step.bind_eq_ok.mp h
    obtain ⟨⟨rest, left₂⟩, bytes₂, hrest, h⟩ := Step.bind_eq_ok.mp h
    cases h
    have hfirst := read_pays (Nat.le_refl _) (Nat.le_refl _) hv
    have hothers := ih hrest
    simp only [List.map_cons, List.sum_cons]
    omega

theorem length_payload {bytes payload : List UInt8} {r : Table × List Ty}
    (h : readPrelude bytes = (.ok r, payload)) : payload.length ≤ bytes.length := by
  obtain ⟨raw, codes, ⟨hcount, hrun, hcodes⟩, _⟩ := readPrelude_eq_ok h
  have hfirst := Reader.streams_length.taken hcount
  have hentries := (Entry.streams_read.times _).taken (Step.times_eq_ok.mpr ⟨rfl, hrun⟩)
  have hlast := Entry.streams_readCodes.taken hcodes
  rw [List.length_append]
  omega

/-- However many elements a message announces, in vectors of vectors and of types that take no
bytes, it holds no more of them than bytes and the allowance for all of its arguments, and its
values go no deeper than the limit. -/
theorem decode_elements_le {bytes : List UInt8} {args : List (Ty × Value)}
    (h : decode bytes = .ok args) :
    (args.map fun p => p.2.elements).sum ≤ bytes.length + 2 ^ 22 ∧ ∀ p ∈ args, p.2.depth ≤ 512 := by
  obtain ⟨t, hdecode⟩ := decodeWithTable_of_decode h
  obtain ⟨types, payload, left, hprelude, hread⟩ := decodeWithTable_eq_ok hdecode
  obtain ⟨hs, htypes⟩ := readPrelude_types hprelude
  obtain ⟨_, hback, _⟩ := readAll_eq_ok (fun type htype => (htypes type htype).2.1.uniqueIds) hread
  refine ⟨?_, fun p hp => Nat.le_of_lt_succ (hback p hp).depth⟩
  have hpaid := args_paid hread
  have hpayload := length_payload hprelude
  have hallowance : maxZeroSized = 2 ^ 22 := rfl
  simp only [List.length_nil] at hpaid
  omega

/-- Three elements that take no bytes, in a vector beside one of two bools: more elements than bytes of
the payload. -/
theorem decode_elements_le_null :
    decode [68, 73, 68, 76, 2, 109, 127, 109, 126, 2, 0, 1, 3, 2, 1, 0] =
      .ok [(.composite (.vec (.prim .null)), .vec [.null, .null, .null]),
        (.composite (.vec (.prim .bool)), .vec [.bool true, .bool false])] ∧
    [elements (.vec [.null, .null, .null]), elements (.vec [.bool true, .bool false])].sum ≤
      16 + 2 ^ 22 := by
  have h : decode [68, 73, 68, 76, 2, 109, 127, 109, 126, 2, 0, 1, 3, 2, 1, 0] =
      .ok [(.composite (.vec (.prim .null)), .vec [.null, .null, .null]),
        (.composite (.vec (.prim .bool)), .vec [.bool true, .bool false])] := by cbv
  exact ⟨h, (decode_elements_le h).1⟩

end Message

end Didl
