import Didl.Proofs.Measuring
import Didl.Proofs.Numbers
import Didl.Proofs.Streaming
import Didl.Proofs.Verdict

namespace Didl

namespace Reader
open Varint
variable {α β : Type} {x : Reader α} {W : α → List UInt8 → Prop}

/-- What is read can be written as `W` tells, in no more bytes than were taken for it, and is read
from these again whatever comes behind. -/
def Restores (x : Reader α) (W : α → List UInt8 → Prop) : Prop :=
  ∀ ⦃bytes rest : List UInt8⦄ ⦃a : α⦄, x bytes = (.ok a, rest) →
    ∃ bs, W a bs ∧ bs.length + rest.length ≤ bytes.length ∧ ∀ rest', x (bs ++ rest') = (.ok a, rest')

namespace Restores

theorem imp {V : α → List UInt8 → Prop} (h : Restores x W) (hV : ∀ a bs, W a bs → V a bs) :
    Restores x V := by
  intro bytes rest a hx
  obtain ⟨bs, hbs, hle, hagain⟩ := h hx
  exact ⟨bs, hV a bs hbs, hle, hagain⟩

/-- What is known of all that a reader yields is known beside. -/
theorem and {P : α → Prop} (h : Restores x W)
    (hP : ∀ {bytes rest a}, x bytes = (.ok a, rest) → P a) :
    Restores x fun a bs => P a ∧ W a bs := by
  intro bytes rest a hx
  obtain ⟨bs, hbs, hle, hagain⟩ := h hx
  exact ⟨bs, ⟨hP hx, hbs⟩, hle, hagain⟩

theorem pure {a : α} (h : W a []) : Restores (Pure.pure a) W := by
  intro bytes rest b hx
  cases hx
  exact ⟨[], h, by simp, fun _ => rfl⟩

theorem fail (e : Fault) : Restores (Step.fail e) W := nofun

/-- One reader after the other: what they yield is written piece by piece. -/
theorem bind {f : α → Reader β} {V : α → β → List UInt8 → Prop} {U : β → List UInt8 → Prop}
    (hx : Restores x W) (hf : ∀ a, Restores (f a) (V a))
    (hU : ∀ a b as bs, W a as → V a b bs → U b (as ++ bs)) : Restores (x >>= f) U := by
  intro bytes rest b h
  obtain ⟨a, mid, ha, hb⟩ := Step.bind_eq_ok.mp h
  obtain ⟨as, has, hle, hagain⟩ := hx ha
  obtain ⟨bs, hbs, hle', hagain'⟩ := hf a hb
  refine ⟨as ++ bs, hU a b as bs has hbs, by rw [List.length_append]; omega, fun rest' => ?_⟩
  rw [List.append_assoc]
  exact (Step.bind_ok (hagain _)).trans (hagain' rest')

theorem map {f : α → β} {U : β → List UInt8 → Prop} (hx : Restores x W)
    (hU : ∀ a bs, W a bs → U (f a) bs) : Restores (x >>= fun a => Pure.pure (f a)) U := by
  refine hx.bind (V := fun a b bs => b = f a ∧ bs = []) (fun a => .pure ⟨rfl, rfl⟩) ?_
  rintro a _ as _ has ⟨rfl, rfl⟩
  rw [List.append_nil]
  exact hU a as has

/-- A writer that always puts out as many bytes as the reader takes at least. -/
theorem of_append {n : Nat} {w : α → List UInt8} (hx : Streams n x) (hlength : ∀ a, (w a).length = n)
    (hagain : ∀ a rest, x (w a ++ rest) = (.ok a, rest)) : Restores x fun a bs => bs = w a := by
  intro bytes rest a h
  have htaken := hx.taken h
  exact ⟨w a, rfl, by rw [hlength]; omega, hagain a⟩

end Restores

theorem restores_byte : Restores byte fun b bs => bs = [b] :=
  .of_append streams_byte (fun _ => rfl) fun _ _ => rfl

theorem restores_flag (bad : UInt8 → Fault) : Restores (flag bad) fun b bs => bs = Writer.flag b := by
  refine .of_append (streams_flag bad) (fun _ => rfl) fun b rest => ?_
  cases b <;> rfl

theorem restores_uint16 : Restores uint16 fun n bs => bs = Writer.littleEndian 2 n.toNat :=
  .of_append (streams_fixed 2).map (fun _ => length_littleEndian 2 _) uint16_append

theorem restores_uint32 : Restores uint32 fun n bs => bs = Writer.littleEndian 4 n.toNat :=
  .of_append (streams_fixed 4).map (fun _ => length_littleEndian 4 _) uint32_append

theorem restores_uint64 : Restores uint64 fun n bs => bs = Writer.littleEndian 8 n.toNat :=
  .of_append (streams_fixed 8).map (fun _ => length_littleEndian 8 _) uint64_append

theorem restores_int8 : Restores int8 fun i bs => bs = [i.toUInt8] :=
  restores_byte.map fun _ _ h => h

theorem restores_int16 : Restores int16 fun i bs => bs = Writer.littleEndian 2 i.toUInt16.toNat :=
  restores_uint16.map fun _ _ h => h

theorem restores_int32 : Restores int32 fun i bs => bs = Writer.littleEndian 4 i.toUInt32.toNat :=
  restores_uint32.map fun _ _ h => h

theorem restores_int64 : Restores int64 fun i bs => bs = Writer.littleEndian 8 i.toUInt64.toNat :=
  restores_uint64.map fun _ _ h => h

theorem restores_nat : Restores nat fun n bs => bs = ofNat n := by
  intro bytes rest n h
  obtain ⟨taken, rfl, hle, hmax⟩ := nat_takes h
  have hagain := (limited_codec (nat_ofNat n) nat_takes).1
  exact ⟨ofNat n, rfl, by rw [List.length_append]; omega, fun rest' => hagain rest' (by omega)⟩

theorem restores_int : Restores int fun i bs => bs = ofInt i := by
  intro bytes rest i h
  obtain ⟨taken, rfl, hle, hmax⟩ := int_takes h
  have hagain := (limited_codec (int_ofInt i) int_takes).1
  exact ⟨ofInt i, rfl, by rw [List.length_append]; omega, fun rest' => hagain rest' (by omega)⟩

theorem restores_varUInt64 : Restores varUInt64 fun word bs => bs = ofNat word.toNat := by
  intro bytes rest word h
  obtain ⟨taken, rfl, hle⟩ := varUInt64_takes h
  refine ⟨ofNat word.toNat, rfl, by rw [List.length_append]; omega, fun rest' => ?_⟩
  rw [varUInt64_ofNat word.toNat_lt, UInt64.ofNat_toNat]

theorem length_eq_ok {n : Nat} {bytes rest : List UInt8} (h : length bytes = (.ok n, rest)) :
    ∃ word : UInt64, varUInt64 bytes = (.ok word, rest) ∧ n = word.toNat ∧ n ≤ rest.length := by
  obtain ⟨word, mid, hword, h⟩ := Step.bind_eq_ok.mp h
  obtain ⟨enough, _, henough, h⟩ := Step.bind_eq_ok.mp h
  cases henough
  split at h
  · rename_i hle
    cases h
    rw [holds_eq, decide_eq_true_eq] at hle
    exact ⟨word, hword, rfl, hle⟩
  · cases h

theorem restores_blob : Restores blob fun b bs => bs = Writer.blob b := by
  intro bytes rest b h
  obtain ⟨n, mid, hn, hb⟩ := Step.bind_eq_ok.mp h
  obtain ⟨word, hword, rfl, hle⟩ := length_eq_ok hn
  rw [bytes_of_le hle] at hb
  cases hb
  obtain ⟨_, rfl, hshort, _⟩ := restores_varUInt64 hword
  have hlength : (mid.take word.toNat).length = word.toNat := List.length_take_of_le hle
  refine ⟨_, rfl, ?_, blob_append (by rw [hlength]; exact word.toNat_lt)⟩
  rw [Writer.blob, List.length_append, List.length_drop, hlength]
  omega

theorem restores_text : Restores text fun s bs => bs = Writer.text s := by
  refine restores_blob.bind (V := fun b s bs => b = s.toUTF8.toList ∧ bs = []) (fun b => ?_) ?_
  · cases hs : String.fromUTF8? b.toByteArray with
    | none => exact .fail _
    | some s => exact .pure ⟨(fromUTF8?_eq_some.mp hs).symm, rfl⟩
  · rintro _ s _ _ rfl ⟨rfl, rfl⟩
    rw [List.append_nil, Writer.text]

end Reader
open Reader

theorem restores_readReference : Restores readReference fun id bs => bs = referenceBytes id := by
  refine (restores_flag _).bind (V := fun present id bs =>
    Writer.flag present ++ bs = referenceBytes id) (fun present => ?_) ?_
  · cases present with
    | true => exact restores_blob.map fun id bs h => by rw [h]; rfl
    | false => exact .pure rfl
  · rintro present id _ bs rfl h
    exact h

theorem restores_readFunc : Restores readFunc fun ref bs => bs = funcBytes ref := by
  refine (restores_flag _).bind (V := fun present ref bs =>
    Writer.flag present ++ bs = funcBytes ref) (fun present => ?_) ?_
  · cases present with
    | true =>
      refine restores_readReference.bind (V := fun service ref bs => ∃ name,
        ref = some ⟨service, name⟩ ∧ bs = Writer.text name) (fun service => ?_) ?_
      · exact restores_text.map fun name bs h => ⟨name, rfl, h⟩
      · rintro service _ _ _ rfl ⟨name, rfl, rfl⟩
        rfl
    | false => exact .pure rfl
  · rintro present ref _ bs rfl h
    exact h

/-- Values of a primitive type. Nothing is left of what is read as `reserved`. -/
theorem Prim.restores_reader (p : Prim) : Restores p.reader fun v bs =>
    (p = .reserved ∧ bs = []) ∨ p.bytes? v = some bs := by
  cases p with
  | null => exact .pure (.inr rfl)
  | reserved => exact .pure (.inl ⟨rfl, rfl⟩)
  | empty => exact .fail _
  | bool => exact (restores_flag _).map fun b bs h => .inr (h ▸ rfl)
  | nat => exact restores_nat.map fun n bs h => .inr (h ▸ rfl)
  | int => exact restores_int.map fun i bs h => .inr (h ▸ rfl)
  | nat8 => exact restores_byte.map fun n bs h => .inr (h ▸ rfl)
  | nat16 => exact restores_uint16.map fun n bs h => .inr (h ▸ rfl)
  | nat32 => exact restores_uint32.map fun n bs h => .inr (h ▸ rfl)
  | nat64 => exact restores_uint64.map fun n bs h => .inr (h ▸ rfl)
  | int8 => exact restores_int8.map fun i bs h => .inr (h ▸ rfl)
  | int16 => exact restores_int16.map fun i bs h => .inr (h ▸ rfl)
  | int32 => exact restores_int32.map fun i bs h => .inr (h ▸ rfl)
  | int64 => exact restores_int64.map fun i bs h => .inr (h ▸ rfl)
  | float32 => exact restores_uint32.map fun n bs h => .inr (h ▸ rfl)
  | float64 => exact restores_uint64.map fun n bs h => .inr (h ▸ rfl)
  | text => exact restores_text.map fun s bs h => .inr (h ▸ rfl)
  | principal => exact restores_readReference.map fun id bs h => .inr (h ▸ rfl)

namespace Value

/-- Elements are written one after the other. -/
theorem restores_items {item : Decode Value} {W : Value → List UInt8 → Prop}
    (h : ∀ allowance, Restores (item allowance) fun p => W p.1) (count : Nat) (done : List Value)
    (allowance : Nat) : Restores (readItems item count done allowance) fun p bs =>
      ∃ parts : List (Value × List UInt8), p.1 = done.reverse ++ parts.map Prod.fst ∧
        parts.length = count ∧ bs = parts.flatMap Prod.snd ∧ ∀ q ∈ parts, W q.1 q.2 := by
  induction count generalizing done allowance with
  | zero => exact .pure ⟨[], by simp, rfl, rfl, nofun⟩
  | succ count ih =>
    rw [readItems_succ]
    refine (h allowance).bind (fun p => ih (p.1 :: done) p.2) ?_
    rintro p ⟨vs, left⟩ as _ has ⟨parts, rfl, rfl, rfl, hparts⟩
    exact ⟨(p.1, as) :: parts, by simp, rfl, rfl, List.forall_mem_cons.mpr ⟨has, hparts⟩⟩

theorem restores_fields {read : Ty → Decode Value} {W : Ty → Value → List UInt8 → Prop}
    {fields : List (Field Ty)}
    (h : ∀ f ∈ fields, ∀ allowance, Restores (read f.type allowance) fun p => W f.type p.1)
    (allowance : Nat) : Restores (readFields read fields allowance) fun p bs =>
      ∃ parts : List (Field Ty × Value × List UInt8), parts.map Prod.fst = fields ∧
        p.1 = parts.map (fun q => (q.1.id, q.2.1)) ∧ bs = parts.flatMap (·.2.2) ∧
        ∀ q ∈ parts, W q.1.type q.2.1 q.2.2 := by
  induction fields generalizing allowance with
  | nil => exact .pure ⟨[], rfl, rfl, rfl, nofun⟩
  | cons f fields ih =>
    have hrest := ih fun g hg => h g (List.mem_cons_of_mem _ hg)
    refine (h f List.mem_cons_self allowance).bind (V := fun p q bs =>
      ∃ parts : List (Field Ty × Value × List UInt8), parts.map Prod.fst = fields ∧
        q.1 = (f.id, p.1) :: parts.map (fun r => (r.1.id, r.2.1)) ∧ bs = parts.flatMap (·.2.2) ∧
        ∀ r ∈ parts, W r.1.type r.2.1 r.2.2) (fun p => (hrest p.2).map ?_) ?_
    · rintro ⟨_, left⟩ _ ⟨parts, hfields, rfl, rfl, hparts⟩
      exact ⟨parts, hfields, rfl, rfl, hparts⟩
    · rintro p ⟨_, left⟩ as _ has ⟨parts, rfl, rfl, rfl, hparts⟩
      exact ⟨(f, p.1, as) :: parts, rfl, rfl, rfl, List.forall_mem_cons.mpr ⟨has, hparts⟩⟩

section Read
variable {t : Table} {type : Ty}

/-- The look at how many bytes are left goes as before, if elements that have to take a byte each are
written in one each. -/
theorem restores_charged {α : Type} {zeroSized : Bool} {count : Nat} {d : Nat → Reader α}
    {W : α → List UInt8 → Prop} (hd : ∀ left, Restores (d left) W)
    (hcount : zeroSized = false → ∀ a bs, W a bs → count ≤ bs.length) (allowance : Nat) :
    Restores (charge zeroSized count allowance >>= d) W := by
  intro bytes rest a h
  obtain ⟨left, _, hcharge, hd'⟩ := Step.bind_eq_ok.mp h
  obtain ⟨rfl, hpaid⟩ := charge_eq_ok.mp hcharge
  obtain ⟨bs, hbs, hlength, hagain⟩ := hd left hd'
  refine ⟨bs, hbs, hlength, fun rest' =>
    (Step.bind_ok (charge_eq_ok.mpr ⟨rfl, ?_⟩)).trans (hagain rest')⟩
  cases zeroSized with
  | true => exact hpaid
  | false =>
    have hle := hcount rfl a bs hbs
    exact ⟨by rw [List.length_append]; omega, hpaid.2⟩

theorem restores_vec (hs : t.Sound) {inner : Ty} {limit : Nat} (hl : limit ≤ maxDepth)
    (hhead : t.follow type = .ok (.composite (.vec inner))) (hc : t.Closed inner)
    (hbyte : t.isByte inner = false)
    (hitem : ∀ allowance, Restores (read t limit inner allowance) fun p bs =>
      p.1.depth < limit ∧ Encodes t p.1 inner bs) (allowance : Nat) :
    Restores (read t (limit + 1) type allowance) fun p => Encodes t p.1 type := by
  rw [read_vec hs hhead hc hbyte]
  refine restores_varUInt64.bind (V := fun word p bs => ∃ parts : List (Value × List UInt8),
    p.1 = .vec (parts.map Prod.fst) ∧ parts.length = word.toNat ∧ bs = parts.flatMap Prod.snd ∧
      ∀ q ∈ parts, q.1.depth < limit ∧ Encodes t q.1 inner q.2) (fun word => ?_) ?_
  · refine restores_charged (fun left => Restores.map (restores_items
      (W := fun w bs => w.depth < limit ∧ Encodes t w inner bs) hitem word.toNat [] left) ?_) ?_ allowance
    · rintro ⟨_, left⟩ _ ⟨parts, rfl, hlength, rfl, hparts⟩
      exact ⟨parts, rfl, hlength, rfl, hparts⟩
    · rintro hzero p _ ⟨parts, _, hlength, rfl, hparts⟩
      have hdepth : (Value.vec (parts.map Prod.fst)).depth ≤ limit := by
        apply depth_le_of_children
        intro w hw
        obtain ⟨q, hq, rfl⟩ := List.mem_map.mp hw
        exact (hparts q hq).1
      rw [← hlength]
      rcases length_le_items hs hc hzero fun q hq => (hparts q hq).2 with hle | hdeep
      · exact hle
      · omega
  · rintro word ⟨_, left⟩ _ _ rfl ⟨parts, rfl, hlength, rfl, hparts⟩
    rw [← hlength]
    exact .vec hhead fun q hq => (hparts q hq).2

theorem restores_record {fields : List (Field Ty)} {limit : Nat}
    (hhead : t.follow type = .ok (.composite (.record fields))) (hids : (fields.map (·.id)).Nodup)
    (hfield : ∀ f ∈ fields, ∀ allowance, Restores (read t limit f.type allowance) fun p =>
      Encodes t p.1 f.type) (allowance : Nat) :
    Restores (read t (limit + 1) type allowance) fun p => Encodes t p.1 type := by
  have hsorted : ∀ f ∈ sortBy (·.id) fields, ∀ allowance,
      Restores (read t limit f.type allowance) fun p => Encodes t p.1 f.type := fun f hf =>
    hfield f ((sortBy_perm (·.id) fields).mem_iff.mp hf)
  rw [read, hhead, Step.ofExcept_ok_bind]
  refine (restores_fields (W := fun type v => Encodes t v type) hsorted allowance).map ?_
  rintro ⟨_, left⟩ _ ⟨parts, hfields, rfl, rfl, hparts⟩
  rw [Assoc.ofList_of_ascending (parts_ascending hids hfields _)]
  exact .record hhead hids hfields hparts

theorem restores_variant {fields : List (Field Ty)} {limit : Nat}
    (hhead : t.follow type = .ok (.composite (.variant fields)))
    (hfield : ∀ f ∈ fields, ∀ allowance, Restores (read t limit f.type allowance) fun p =>
      Encodes t p.1 f.type) (allowance : Nat) :
    Restores (read t (limit + 1) type allowance) fun p => Encodes t p.1 type := by
  rw [read_variant hhead]
  refine restores_varUInt64.bind (V := fun tag p bs => ∃ f w, findField? fields f.id = some f ∧
    f.id.toNat = tag.toNat ∧ p.1 = .variant f.id w ∧ Encodes t w f.type bs) (fun tag => ?_) ?_
  · rw [readAlternative]
    cases hfind : fields.find? (·.id.toNat == tag.toNat) with
    | none => exact .fail _
    | some f =>
      obtain ⟨hid, hmem, hf⟩ := findField?_of_tag hfind
      refine (hfield f hmem allowance).map fun p bs hw => ?_
      exact ⟨f, p.1, hf, hid, rfl, hw⟩
  · rintro tag ⟨_, left⟩ _ bs rfl ⟨f, w, hf, hid, rfl, hw⟩
    rw [← hid]
    exact .variant hhead hf hw

/-- Whatever is read of a value, the value is written in no more bytes, and is read from these. -/
theorem restores_read (hs : t.Sound) (hc : t.Closed type) (hids : t.UniqueIds type) {limit : Nat}
    (hl : limit ≤ maxDepth + 1) (allowance : Nat) :
    Restores (read t limit type allowance) fun p => Encodes t p.1 type := by
  induction limit generalizing type allowance with
  | zero => exact .fail _
  | succ limit ih =>
    have hmember : ∀ {c m}, t.follow type = .ok (.composite c) → m ∈ c.members →
        t.Closed m ∧ t.UniqueIds m := fun hhead hm =>
      ⟨member_closed hs hc hhead hm, hids.member (Table.former_eq_some.mpr ⟨_, hhead, rfl⟩) hm⟩
    have hfield : ∀ {c m}, t.follow type = .ok (.composite c) → m ∈ c.members → ∀ allowance,
        Restores (read t limit m allowance) fun p => Encodes t p.1 m := fun hhead hm =>
      ih (hmember hhead hm).1 (hmember hhead hm).2 (by omega)
    obtain ⟨head, hhead, _⟩ := follow_of_closed hs hc
    cases head with
    | prim p =>
      rw [read, hhead, Step.ofExcept_ok_bind]
      refine p.restores_reader.map ?_
      rintro v bs (⟨rfl, rfl⟩ | hbytes)
      · exact .reserved hhead
      · exact .prim hhead hbytes
    | composite c =>
      cases c with
      | opt inner =>
        have hinner := hfield hhead (List.mem_singleton_self inner) allowance
        rw [read, hhead, Step.ofExcept_ok_bind]
        refine (restores_flag _).bind (V := fun present p bs =>
          Encodes t p.1 type (Writer.flag present ++ bs)) (fun present => ?_) ?_
        · cases present with
          | true => exact hinner.map fun p bs hw => .some hhead hw
          | false => exact .pure (.none hhead)
        · rintro present p _ bs rfl hw
          exact hw
      | vec inner =>
        obtain ⟨hclosed, hunique⟩ := hmember hhead (List.mem_singleton_self inner)
        cases hbyte : t.isByte inner with
        | true =>
          rw [read_bytes hs hhead hclosed hbyte]
          exact restores_blob.map fun b bs h => h ▸ .blob hhead hbyte
        | false =>
          refine restores_vec hs (by omega) hhead hclosed hbyte (fun left => ?_) allowance
          exact (ih hclosed hunique (by omega) left).and fun h =>
            (readBack_of_read hunique _ h).1.depth
      | record fields =>
        have hnodup := hids type fields .refl (.inl (Table.former_eq_some.mpr ⟨_, hhead, rfl⟩))
        exact restores_record hhead hnodup (fun f hf => hfield hhead (List.mem_map_of_mem hf)) allowance
      | variant fields =>
        exact restores_variant hhead (fun f hf => hfield hhead (List.mem_map_of_mem hf)) allowance
      | func args results modes =>
        rw [read, hhead, Step.ofExcept_ok_bind]
        exact restores_readFunc.map fun ref bs h => h ▸ .func ref hhead
      | service methods =>
        rw [read, hhead, Step.ofExcept_ok_bind]
        exact restores_readReference.map fun id bs h => h ▸ .service id hhead
      | future opcode payload =>
        rw [read, hhead, Step.ofExcept_ok_bind]
        exact restores_blob.map fun b bs h => h ▸ .future b hhead

/-- Whatever bytes a value was read from, it is encoded in no more of them, the same whichever they
were, and what is encoded is decoded as the value, which is encoded as before. -/
theorem encode_reader (ht : t.Made) (hc : t.Closed type) (hids : t.UniqueIds type) {v : Value}
    {bytes rest : List UInt8} (h : reader t type bytes = (.ok v, rest)) :
    ∃ canonical, v.encode t type = .ok canonical ∧
      canonical.length + rest.length ≤ bytes.length ∧
      (∀ rest', reader t type (canonical ++ rest') = (.ok v, rest')) ∧
      decode t type canonical = .ok v ∧
      (decode t type canonical >>= fun w => w.encode t type) = .ok canonical := by
  have hrestores : Restores (reader t type) fun v => Encodes t v type :=
    (restores_read ht.sound hc hids (Nat.le_refl _) maxZeroSized).map fun _ _ hw => hw
  obtain ⟨canonical, hencodes, hle, hagain⟩ := hrestores h
  have hencode := encode_of_encodes hencodes
  have hdecode : decode t type canonical = .ok v := by
    have hread := hagain []
    rw [List.append_nil] at hread
    rw [decode, hread]
  refine ⟨canonical, hencode, hle, hagain, hdecode, ?_⟩
  rw [hdecode]
  exact hencode

end Read

open Table (loop loop_built)

def choices : Ty :=
  .composite (.vec (.composite (.variant [⟨1, none, .prim .int⟩, ⟨0, none, .named "a"⟩])))

theorem choices_reach {u : Ty} (h : (loop "a").Reach choices u) :
    u = choices ∨ u = .composite (.variant [⟨1, none, .prim .int⟩, ⟨0, none, .named "a"⟩]) ∨
      u = .prim .int ∨ u = .named "a" := by
  refine h.invariant (P := fun u => u = choices ∨
    u = .composite (.variant [⟨1, none, .prim .int⟩, ⟨0, none, .named "a"⟩]) ∨
      u = .prim .int ∨ u = .named "a") ?_ (.inl rfl)
  rintro _ f (rfl | rfl | rfl | rfl) hf v hv <;> cases hf
  · exact .inr (.inl (List.mem_singleton.mp hv))
  · rcases List.mem_cons.mp hv with rfl | hv
    · exact .inr (.inr (.inl rfl))
    · exact .inr (.inr (.inr (List.mem_singleton.mp hv)))
  · cases hv
  · exact .inr (.inr (.inr (List.mem_singleton.mp hv)))

/-- The count, both tags and the number were written in two groups where one is enough. -/
theorem encode_reader_choices :
    let v := Value.vec [.variant 1 (.int (-1)), .variant 0 (.opt none)]
    reader (loop "a") choices [0x82, 0, 0x81, 0, 0xff, 0x7f, 0x80, 0, 0, 42] = (.ok v, [42]) ∧
      v.encode (loop "a") choices = .ok [2, 1, 0x7f, 0, 0] ∧
      (∀ rest, reader (loop "a") choices ([2, 1, 0x7f, 0, 0] ++ rest) = (.ok v, rest)) ∧
      decode (loop "a") choices [2, 1, 0x7f, 0, 0] = .ok v := by
  intro v
  have hclosed : (loop "a").Closed choices := by
    intro x hx
    rcases choices_reach hx with h | h | h | h <;> cases h
    rfl
  have hids : (loop "a").UniqueIds choices := by
    intro u fields hu hfields
    rcases choices_reach hu with rfl | rfl | rfl | rfl <;> rcases hfields with hf | hf <;> cases hf
    decide
  have hread : reader (loop "a") choices [0x82, 0, 0x81, 0, 0xff, 0x7f, 0x80, 0, 0, 42] =
      (.ok v, [42]) := by rfl
  have hencode : v.encode (loop "a") choices = .ok [2, 1, 0x7f, 0, 0] := by cbv
  obtain ⟨bytes, hbytes, -, hagain, hdecode, -⟩ :=
    encode_reader (.built (loop_built "a")) hclosed hids hread
  obtain rfl : [2, 1, 0x7f, 0, 0] = bytes := Except.ok.inj (hencode.symm.trans hbytes)
  exact ⟨hread, hencode, hagain, hdecode⟩

end Value

end Didl
