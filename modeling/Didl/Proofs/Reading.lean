import Didl.Proofs.RoundTrip

namespace Didl

namespace Varint

/-- The bytes of one number: every one but the last says that another follows. -/
inductive Whole : List UInt8 → Prop
  | last {b : UInt8} : isLast b = true → Whole [b]
  | more {b : UInt8} {bs : List UInt8} : isLast b = false → Whole bs → Whole (b :: bs)

theorem Whole.ne_nil {bs : List UInt8} (h : Whole bs) : bs ≠ [] := by
  cases h <;> simp

theorem payload_lt (b : UInt8) : (payload b).toNat < 128 := by
  have hle : (payload b).toNat ≤ (0x7f : UInt8).toNat := UInt8.le_iff_toNat_le.mp UInt8.and_le_right
  exact Nat.lt_succ_of_le hle

theorem value_lt {gs : List UInt8} (h : ∀ g ∈ gs, g.toNat < 128) : value gs < 128 ^ gs.length := by
  induction gs with
  | nil => simp [value]
  | cons g gs ih =>
    have hg := h g List.mem_cons_self
    have hrest := ih fun g' hg' => h g' (List.mem_cons_of_mem _ hg')
    rw [value, List.length_cons, Nat.pow_succ]
    omega

/-- No number is written in more groups than it needs. -/
theorem length_ofNat_minimal {n k : Nat} (hk : 0 < k) (h : n < 128 ^ k) : (ofNat n).length ≤ k := by
  induction k generalizing n with
  | zero => cases hk
  | succ k ih =>
    rw [ofNat]
    split
    · simp
    · have hlt : n / 128 < 128 ^ k := by
        rw [Nat.pow_succ] at h
        exact Nat.div_lt_of_lt_mul (by omega)
      have hpos : 0 < k := by
        rcases Nat.eq_zero_or_pos k with rfl | hpos
        · omega
        · exact hpos
      simpa using ih hpos hlt

theorem signedValue_bounds {gs : List UInt8} (hne : gs ≠ []) (h : ∀ g ∈ gs, g.toNat < 128) :
    -(2 : Int) ^ (7 * gs.length - 1) ≤ signedValue gs ∧
      signedValue gs < 2 ^ (7 * gs.length - 1) := by
  induction gs with
  | nil => exact absurd rfl hne
  | cons g gs ih =>
    have hg := h g List.mem_cons_self
    cases gs with
    | nil =>
      have hlast := (last_group g.toNat hg).2.2
      rw [UInt8.ofNat_toNat] at hlast
      rw [signedValue_eq List.getLast?_singleton, hlast]
      simp only [decide_eq_true_eq, List.length_singleton, value]
      split <;> omega
    | cons g' gs =>
      obtain ⟨hlow, hhigh⟩ := ih (by simp) fun x hx => h x (List.mem_cons_of_mem _ hx)
      have hpow : (2 : Int) ^ (7 * (g :: g' :: gs).length - 1) =
          128 * 2 ^ (7 * (g' :: gs).length - 1) := by
        rw [List.length_cons (a := g),
          show 7 * ((g' :: gs).length + 1) - 1 = 7 * (g' :: gs).length - 1 + 7 by
            rw [List.length_cons]; omega, Int.pow_add]
        omega
      rw [signedValue_cons g (by simp), hpow]
      omega

/-- No integer is written in more groups than hold it with its sign. -/
theorem sizeInt_minimal {i : Int} {k : Nat} (hk : 0 < k) (hlow : -(2 : Int) ^ (7 * k - 1) ≤ i)
    (hhigh : i < 2 ^ (7 * k - 1)) : sizeInt i ≤ k := by
  have hbits : ∀ n : Nat, (n : Int) < 2 ^ (7 * k - 1) → bitLength n ≤ 7 * k - 1 := by
    intro n hn
    unfold bitLength
    split
    · omega
    · rename_i hne
      exact (Nat.log2_lt hne).mpr (by exact_mod_cast hn)
  unfold sizeInt
  cases i with
  | ofNat n =>
    have hle := hbits n hhigh
    simp only [magnitudeBits]
    omega
  | negSucc n =>
    have hle := hbits n (by omega)
    simp only [magnitudeBits]
    omega

end Varint

namespace Reader
open Varint

theorem byte_eq_ok {b : UInt8} {bytes rest : List UInt8} :
    byte bytes = (.ok b, rest) ↔ bytes = b :: rest := by
  cases bytes with
  | nil => simp [byte]
  | cons c bytes => simp [byte]

/-- What stands in front of bytes as a number is the first of them and what it says is behind it. -/
theorem exists_whole_cons {b : UInt8} {bytes rest : List UInt8} {count : Nat}
    {P : List UInt8 → Prop} :
    (∃ taken, b :: bytes = taken ++ rest ∧ Whole taken ∧ taken.length ≤ count + 1 ∧ P taken) ↔
      isLast b = true ∧ bytes = rest ∧ P [b] ∨
      isLast b = false ∧ ∃ taken, bytes = taken ++ rest ∧ Whole taken ∧ taken.length ≤ count ∧
        P (b :: taken) := by
  constructor
  · rintro ⟨_, hbytes, hwhole, hlength, hP⟩
    cases hwhole with
    | last hlast =>
      cases hbytes
      exact .inl ⟨hlast, rfl, hP⟩
    | more hmore hwhole =>
      cases hbytes
      exact .inr ⟨hmore, _, rfl, hwhole, Nat.le_of_succ_le_succ hlength, hP⟩
  · rintro (⟨hlast, rfl, hP⟩ | ⟨hmore, taken, rfl, hwhole, hlength, hP⟩)
    · exact ⟨[b], rfl, .last hlast, by simp, hP⟩
    · exact ⟨b :: taken, rfl, .more hmore hwhole, by simpa using hlength, hP⟩

/-- Nothing stands in front of no bytes as a number. -/
theorem not_whole_nil {rest taken : List UInt8} (h : [] = taken ++ rest) : ¬ Whole taken := by
  rw [(List.append_eq_nil_iff.mp h.symm).1]
  nofun

/-- Groups are read up to the first byte that none follows, unless these are more than were
allowed. -/
theorem groups_eq_ok {count : Nat} {done gs : List UInt8} {bytes rest : List UInt8} :
    groups count done bytes = (.ok gs, rest) ↔ ∃ taken, bytes = taken ++ rest ∧ Whole taken ∧
      taken.length ≤ count ∧ gs = done.reverse ++ taken.map payload := by
  induction count generalizing done bytes with
  | zero =>
    refine ⟨nofun, fun ⟨taken, _, hwhole, hlength, _⟩ => ?_⟩
    exact absurd (List.length_eq_zero_iff.mp (Nat.le_zero.mp hlength)) hwhole.ne_nil
  | succ count ih =>
    cases bytes with
    | nil => exact ⟨nofun, fun ⟨taken, hbytes, hwhole, _⟩ => (not_whole_nil hbytes hwhole).elim⟩
    | cons b bytes =>
      have hstep : groups (count + 1) done (b :: bytes) = if isLast b then
          (.ok (payload b :: done).reverse, bytes) else groups count (payload b :: done) bytes := by
        rw [groups]
        refine (Step.bind_ok (byte_cons b bytes)).trans ?_
        split <;> rfl
      rw [hstep, exists_whole_cons]
      cases hlast : isLast b with
      | true => simp [and_comm, eq_comm]
      | false =>
        rw [if_neg (by simp), ih]
        simp

theorem payloads_lt (taken : List UInt8) : ∀ g ∈ taken.map payload, g.toNat < 128 := by
  intro g hg
  obtain ⟨b, _, rfl⟩ := List.mem_map.mp hg
  exact payload_lt b

/-- A number is read from its bytes if there are no more of them than are allowed, whatever its
groups are taken to stand for. -/
theorem number_eq_ok {α : Type} {stands : List UInt8 → α} {a : α} {bytes rest : List UInt8} :
    (do return stands (← groups maxGroups []) : Reader α) bytes = (.ok a, rest) ↔
      ∃ taken, bytes = taken ++ rest ∧ Whole taken ∧ taken.length ≤ maxGroups ∧
        a = stands (taken.map payload) := by
  constructor
  · intro h
    obtain ⟨gs, bytes₁, hgroups, h⟩ := Step.bind_eq_ok.mp h
    cases h
    obtain ⟨taken, hbytes, hwhole, hlength, rfl⟩ := groups_eq_ok.mp hgroups
    exact ⟨taken, hbytes, hwhole, hlength, rfl⟩
  · rintro ⟨taken, hbytes, hwhole, hlength, rfl⟩
    exact Step.bind_ok (groups_eq_ok.mpr ⟨taken, hbytes, hwhole, hlength, rfl⟩)

theorem nat_eq_ok {n : Nat} {bytes rest : List UInt8} :
    nat bytes = (.ok n, rest) ↔ ∃ taken, bytes = taken ++ rest ∧ Whole taken ∧
      taken.length ≤ maxGroups ∧ n = value (taken.map payload) := number_eq_ok

theorem int_eq_ok {i : Int} {bytes rest : List UInt8} :
    int bytes = (.ok i, rest) ↔ ∃ taken, bytes = taken ++ rest ∧ Whole taken ∧
      taken.length ≤ maxGroups ∧ i = signedValue (taken.map payload) := number_eq_ok

/-- What is read of a natural number takes no fewer bytes than it is written in. -/
theorem nat_takes {n : Nat} {bytes rest : List UInt8} (h : nat bytes = (.ok n, rest)) :
    ∃ taken, bytes = taken ++ rest ∧ (ofNat n).length ≤ taken.length ∧
      taken.length ≤ maxGroups := by
  obtain ⟨taken, hbytes, hwhole, hlength, rfl⟩ := nat_eq_ok.mp h
  have hlt := value_lt (payloads_lt taken)
  rw [List.length_map] at hlt
  exact ⟨taken, hbytes, length_ofNat_minimal (List.length_pos_iff.mpr hwhole.ne_nil) hlt, hlength⟩

theorem int_takes {i : Int} {bytes rest : List UInt8} (h : int bytes = (.ok i, rest)) :
    ∃ taken, bytes = taken ++ rest ∧ (ofInt i).length ≤ taken.length ∧
      taken.length ≤ maxGroups := by
  obtain ⟨taken, hbytes, hwhole, hlength, rfl⟩ := int_eq_ok.mp h
  have hne := hwhole.ne_nil
  obtain ⟨hlow, hhigh⟩ := signedValue_bounds (by simpa using hne) (payloads_lt taken)
  rw [List.length_map] at hlow hhigh
  have hminimal := sizeInt_minimal (List.length_pos_iff.mpr hne) hlow hhigh
  refine ⟨taken, hbytes, ?_, hlength⟩
  rw [ofInt_eq, length_marked, length_signedDigits]
  exact hminimal

end Reader

/-- Where every member has a companion, there is a list of members with their companions. -/
theorem exists_pairs {α β : Type} {P : α → β → Prop} {as : List α} (h : ∀ a ∈ as, ∃ b, P a b) :
    ∃ ps : List (α × β), ps.map Prod.fst = as ∧ ∀ p ∈ ps, P p.1 p.2 := by
  induction as with
  | nil => exact ⟨[], rfl, nofun⟩
  | cons a as ih =>
    obtain ⟨b, hb⟩ := h a List.mem_cons_self
    obtain ⟨ps, rfl, hps⟩ := ih fun x hx => h x (List.mem_cons_of_mem _ hx)
    exact ⟨(a, b) :: ps, rfl, List.forall_mem_cons.mpr ⟨hb, hps⟩⟩

namespace Value

theorem depth_le_of_children {v : Value} {n : Nat} (h : ∀ w ∈ v.children, w.depth < n) :
    v.depth ≤ n := by
  have hmax : ∀ ns : List Nat, (∀ m ∈ ns, m ≤ n) → ns.foldr max 0 ≤ n := by
    intro ns hns
    induction ns with
    | nil => exact Nat.zero_le _
    | cons m ns ih =>
      rw [List.foldr_cons]
      exact Nat.max_le.mpr ⟨hns m List.mem_cons_self, ih fun k hk => hns k (List.mem_cons_of_mem _ hk)⟩
  rw [depth.eq_1 v]
  apply hmax
  intro m hm
  obtain ⟨w, _, rfl⟩ := List.mem_map.mp hm
  exact h w.1 w.2

/-- What is known of a value that was read as a type: it can be written as that type, it is in the
form in which a reader holds it, and a reader of `limit` levels has no reason to refuse it. -/
structure ReadBack (t : Table) (type : Ty) (limit : Nat) (v : Value) : Prop where
  encodes : ∃ bytes, Encodes t v type bytes
  normal : normal t v type = v
  ordered : v.Ordered
  depth : v.depth < limit
  numbers : v.ShortNumbers

namespace ReadBack
variable {t : Table} {type inner : Ty} {fields : List (Field Ty)} {limit : Nat} {v w : Value}

theorem of_leaf (hencodes : ∃ bytes, Encodes t v type bytes) (hnormal : Value.normal t v type = v)
    (hchildren : v.children = []) (hrecord : ∀ fields, v ≠ .record fields) (hnumbers : v.ShortNumbers) :
    ReadBack t type (limit + 1) v where
  encodes := hencodes
  normal := hnormal
  ordered := .of_leaf hchildren hrecord
  depth := Nat.lt_succ_of_le (depth_le_of_children (by simp [hchildren]))
  numbers := hnumbers

/-- A value that stands as it is costs nothing. -/
theorem plain {head : Head} (hhead : t.follow type = .ok head) (hv : Stops head v)
    (hencodes : ∃ bytes, Encodes t v type bytes) (hchildren : v.children = [])
    (hrecord : ∀ fields, v ≠ .record fields) (hnumbers : v.ShortNumbers) {left : Nat} :
    ReadBack t type (limit + 1) v ∧ zeroItems t v type + left ≤ left := by
  refine ⟨.of_leaf hencodes (normal_stops hhead hv) hchildren hrecord hnumbers, ?_⟩
  rw [zeroItems_stops hhead hv, Nat.zero_add]

theorem opt (hhead : t.follow type = .ok (.composite (.opt inner))) (h : ReadBack t inner limit w) :
    ReadBack t type (limit + 1) (.opt (some w)) := by
  obtain ⟨bytes, hbytes⟩ := h.encodes
  have hchildren : (Value.opt (some w)).children = [w] := rfl
  refine ⟨⟨_, .some hhead hbytes⟩, ?_, ?_, ?_, ?_⟩
  · rw [normal_some hhead, h.normal]
  · exact .of_children (by simpa [hchildren] using h.ordered) nofun
  · exact Nat.lt_succ_of_le (depth_le_of_children (by simpa [hchildren] using h.depth))
  · exact .of_children (by simpa [hchildren] using h.numbers) nofun nofun

theorem vec (hhead : t.follow type = .ok (.composite (.vec inner))) (hbyte : t.isByte inner = false)
    {items : List Value} (h : ∀ w ∈ items, ReadBack t inner limit w) :
    ReadBack t type (limit + 1) (.vec items) := by
  obtain ⟨parts, rfl, hparts⟩ := exists_pairs fun w hw => (h w hw).encodes
  refine ⟨⟨_, .vec hhead hparts⟩, ?_, ?_, ?_, ?_⟩
  · rw [normal_vec hhead, hbyte, if_neg (by simp)]
    congr 1
    exact (List.map_congr_left fun w hw => (h w hw).normal).trans (List.map_id _)
  · exact .of_children (fun w hw => (h w hw).ordered) nofun
  · exact Nat.lt_succ_of_le (depth_le_of_children fun w hw => (h w hw).depth)
  · exact .of_children (fun w hw => (h w hw).numbers) nofun nofun

theorem record (hhead : t.follow type = .ok (.composite (.record fields)))
    (hids : (fields.map (·.id)).Nodup) {parts : List (Field Ty × Value)}
    (hfields : parts.map Prod.fst = sortBy (·.id) fields)
    (h : ∀ p ∈ parts, ReadBack t p.1.type limit p.2) :
    ReadBack t type (limit + 1) (.record (parts.map fun p => (p.1.id, p.2))) := by
  have hchildren : ∀ {P : Value → Prop}, (∀ p ∈ parts, P p.2) →
      ∀ w ∈ (Value.record (parts.map fun p => (p.1.id, p.2))).children, P w := by
    intro P hP w hw
    simp only [children, List.map_map] at hw
    obtain ⟨p, hp, rfl⟩ := List.mem_map.mp hw
    exact hP p hp
  refine ⟨?_, ?_, ?_, ?_, ?_⟩
  · obtain ⟨pieces, hpieces, hencodes⟩ := exists_pairs fun p hp => (h p hp).encodes
    have hencodes' : ∀ q ∈ pieces.map fun q => (q.1.1, q.1.2, q.2),
        Encodes t q.2.1 q.1.type q.2.2 := by
      intro q hq
      obtain ⟨q', hq', rfl⟩ := List.mem_map.mp hq
      exact hencodes q' hq'
    have hrecord := Encodes.record hhead hids (by
      rw [← hfields, ← hpieces, List.map_map, List.map_map]
      rfl) hencodes'
    rw [List.map_map] at hrecord
    rw [← hpieces, List.map_map]
    exact ⟨_, hrecord⟩
  · rw [normal_record hhead (find_of_parts hids hfields)]
    congr 1
    exact List.map_congr_left fun p hp => by rw [(h p hp).normal]
  · refine .of_children (hchildren fun p hp => (h p hp).ordered) fun values hvalues => ?_
    cases hvalues
    exact parts_ascending hids hfields _
  · exact Nat.lt_succ_of_le (depth_le_of_children (hchildren fun p hp => (h p hp).depth))
  · exact .of_children (hchildren fun p hp => (h p hp).numbers) (by simp) (by simp)

theorem variant (hhead : t.follow type = .ok (.composite (.variant fields))) {f : Field Ty}
    (hf : findField? fields f.id = some f) (h : ReadBack t f.type limit w) :
    ReadBack t type (limit + 1) (.variant f.id w) := by
  obtain ⟨bytes, hbytes⟩ := h.encodes
  have hchildren : (Value.variant f.id w).children = [w] := rfl
  refine ⟨⟨_, .variant hhead hf hbytes⟩, ?_, ?_, ?_, ?_⟩
  · rw [normal_variant hhead hf, h.normal]
  · exact .of_children (by simpa [hchildren] using h.ordered) nofun
  · exact Nat.lt_succ_of_le (depth_le_of_children (by simpa [hchildren] using h.depth))
  · exact .of_children (by simpa [hchildren] using h.numbers) nofun nofun

end ReadBack

/-- A primitive value that was read can be written, unless nothing is left of it; a number is not
too long to be read again. -/
theorem prim_reader_eq_ok {p : Prim} {v : Value} {bytes rest : List UInt8}
    (h : p.reader bytes = (.ok v, rest)) :
    (p = .reserved ∧ v = .reserved ∨ ∃ bs, p.bytes? v = some bs) ∧ v.children = [] ∧
      (∀ fields, v ≠ .record fields) ∧ v.ShortNumbers := by
  cases p with
  | null | reserved =>
    cases h
    exact ⟨by simp [Prim.bytes?], rfl, by simp, .of_leaf rfl (by simp) (by simp)⟩
  | empty => cases h
  | nat =>
    obtain ⟨n, bytes₁, hn, h⟩ := Step.bind_eq_ok.mp h
    cases h
    refine ⟨by simp [Prim.bytes?], rfl, by simp, .of_children (by simp [children]) (fun m hm => ?_) (by simp)⟩
    cases hm
    obtain ⟨taken, _, hle, hmax⟩ := Reader.nat_takes hn
    exact Nat.le_trans hle hmax
  | int =>
    obtain ⟨i, bytes₁, hi, h⟩ := Step.bind_eq_ok.mp h
    cases h
    refine ⟨by simp [Prim.bytes?], rfl, by simp, .of_children (by simp [children]) (by simp) fun j hj => ?_⟩
    cases hj
    obtain ⟨taken, _, hle, hmax⟩ := Reader.int_takes hi
    exact Nat.le_trans hle hmax
  | _ =>
    obtain ⟨a, bytes₁, _, h⟩ := Step.bind_eq_ok.mp h
    cases h
    exact ⟨by simp [Prim.bytes?], rfl, by simp, .of_leaf rfl (by simp) (by simp)⟩

theorem flat_reader_eq_ok {c : Composite Ty} {x : Reader Value} (hx : c.reader? = some x) {v : Value}
    {bytes rest : List UInt8} (h : x bytes = (.ok v, rest)) :
    (∃ bs, c.bytes? v = some bs) ∧ v.children = [] ∧ (∀ fields, v ≠ .record fields) ∧
      v.ShortNumbers := by
  cases c <;> cases hx
  all_goals
    obtain ⟨a, bytes₁, _, h⟩ := Step.bind_eq_ok.mp h
    cases h
    exact ⟨⟨_, rfl⟩, rfl, by simp, .of_leaf rfl (by simp) (by simp)⟩

section Read
variable {t : Table} {type inner : Ty}

theorem readItems_eq_ok {item : Decode Value} {P : Value → Prop} {g : Value → Nat}
    (hitem : ∀ allowance bytes v left rest, item allowance bytes = (.ok (v, left), rest) →
      P v ∧ g v + left ≤ allowance)
    {count : Nat} {done vs : List Value} {allowance left : Nat} {bytes rest : List UInt8}
    (h : readItems item count done allowance bytes = (.ok (vs, left), rest)) :
    ∃ more, vs = done.reverse ++ more ∧ more.length = count ∧ (∀ v ∈ more, P v) ∧
      (more.map g).sum + left ≤ allowance := by
  induction count generalizing done allowance bytes with
  | zero =>
    cases h
    exact ⟨[], by simp, rfl, nofun, by simp⟩
  | succ count ih =>
    rw [readItems_succ] at h
    obtain ⟨⟨v, mid⟩, bytes₁, hfirst, h⟩ := Step.bind_eq_ok.mp h
    obtain ⟨hv, hle⟩ := hitem _ _ _ _ _ hfirst
    obtain ⟨more, rfl, hlength, hmore, hsum⟩ := ih h
    refine ⟨v :: more, by simp, by simpa using hlength, List.forall_mem_cons.mpr ⟨hv, hmore⟩, ?_⟩
    dsimp only at hsum
    rw [List.map_cons, List.sum_cons]
    omega

theorem readFields_eq_ok {read : Ty → Decode Value} {P : Ty → Value → Prop} {g : Value → Ty → Nat}
    {fields : List (Field Ty)}
    (hread : ∀ f ∈ fields, ∀ allowance bytes v left rest,
      read f.type allowance bytes = (.ok (v, left), rest) →
        P f.type v ∧ g v f.type + left ≤ allowance)
    {vs : List (UInt32 × Value)} {allowance left : Nat} {bytes rest : List UInt8}
    (h : readFields read fields allowance bytes = (.ok (vs, left), rest)) :
    ∃ parts : List (Field Ty × Value), parts.map Prod.fst = fields ∧
      vs = parts.map (fun p => (p.1.id, p.2)) ∧ (∀ p ∈ parts, P p.1.type p.2) ∧
      (parts.map fun p => g p.2 p.1.type).sum + left ≤ allowance := by
  induction fields generalizing vs allowance bytes with
  | nil =>
    cases h
    exact ⟨[], rfl, rfl, nofun, by simp⟩
  | cons f fields ih =>
    obtain ⟨⟨v, mid⟩, bytes₁, hfirst, h⟩ := Step.bind_eq_ok.mp h
    obtain ⟨⟨ws, left'⟩, bytes₂, hrest, h⟩ := Step.bind_eq_ok.mp h
    cases h
    obtain ⟨hv, hle⟩ := hread f List.mem_cons_self _ _ _ _ _ hfirst
    obtain ⟨parts, rfl, rfl, hparts, hsum⟩ :=
      ih (fun f hf => hread f (List.mem_cons_of_mem _ hf)) hrest
    refine ⟨(f, v) :: parts, rfl, rfl, List.forall_mem_cons.mpr ⟨hv, hparts⟩, ?_⟩
    simp only [List.map_cons, List.sum_cons]
    omega

theorem charge_spends {zeroSized : Bool} {count allowance left : Nat} {bytes rest : List UInt8}
    (h : charge zeroSized count allowance bytes = (.ok left, rest)) :
    (if zeroSized then count else 0) + left ≤ allowance := by
  have hpaid := (charge_eq_ok.mp h).2
  split at hpaid <;> simp_all

section Inversion
variable {fields : List (Field Ty)} {limit allowance left : Nat} {v : Value} {bytes rest : List UInt8}

theorem read_prim_eq_ok {p : Prim} (hhead : t.follow type = .ok (.prim p))
    (h : read t (limit + 1) type allowance bytes = (.ok (v, left), rest)) :
    p.reader bytes = (.ok v, rest) ∧ left = allowance := by
  rw [read, hhead, Step.ofExcept_ok_bind] at h
  obtain ⟨w, _, hw, h⟩ := Step.bind_eq_ok.mp h
  cases h
  exact ⟨hw, rfl⟩

theorem read_flat_eq_ok {c : Composite Ty} (hhead : t.follow type = .ok (.composite c))
    {x : Reader Value} (hx : c.reader? = some x)
    (h : read t (limit + 1) type allowance bytes = (.ok (v, left), rest)) :
    x bytes = (.ok v, rest) ∧ left = allowance := by
  rw [read_flat hhead hx] at h
  obtain ⟨w, _, hw, h⟩ := Step.bind_eq_ok.mp h
  cases h
  exact ⟨hw, rfl⟩

theorem read_opt_eq_ok (hhead : t.follow type = .ok (.composite (.opt inner)))
    (h : read t (limit + 1) type allowance bytes = (.ok (v, left), rest)) :
    (v = .opt none ∧ left = allowance) ∨ ∃ w bytes₁, v = .opt (some w) ∧
      read t limit inner allowance bytes₁ = (.ok (w, left), rest) := by
  rw [read, hhead, Step.ofExcept_ok_bind] at h
  obtain ⟨present, _, _, h⟩ := Step.bind_eq_ok.mp h
  split at h
  · obtain ⟨⟨w, _⟩, _, hw, h⟩ := Step.bind_eq_ok.mp h
    cases h
    exact .inr ⟨w, _, rfl, hw⟩
  · cases h
    exact .inl ⟨rfl, rfl⟩

/-- Bytes come as they are; other elements are read one by one once they are charged. -/
theorem read_vec_eq_ok (hhead : t.follow type = .ok (.composite (.vec inner)))
    (h : read t (limit + 1) type allowance bytes = (.ok (v, left), rest)) :
    (t.isByte inner = true ∧ left = allowance ∧ ∃ bs, v = .blob bs) ∨
      (t.isByte inner = false ∧ ∃ count mid items bytes₁ bytes₂, v = .vec items ∧
        charge (t.isZeroSized (maxDepth + 1) inner) count allowance bytes₁ = (.ok mid, bytes₂) ∧
        readItems (read t limit inner) count [] mid bytes₂ = (.ok (items, left), rest)) := by
  rw [read, hhead, Step.ofExcept_ok_bind] at h
  obtain ⟨x, _, hstep, h⟩ := Step.bind_eq_ok.mp h
  obtain ⟨hinner, rfl⟩ := Step.ofExcept_eq_ok.mp hstep
  rw [Table.isByte, hinner]
  split at h
  · rename_i hbyte
    obtain ⟨bs, _, _, h⟩ := Step.bind_eq_ok.mp h
    cases h
    exact .inl ⟨hbyte, rfl, bs, rfl⟩
  · rename_i hnot
    obtain ⟨count, _, _, h⟩ := Step.bind_eq_ok.mp h
    obtain ⟨zeroSized, _, hstep, h⟩ := Step.bind_eq_ok.mp h
    obtain ⟨hzero, rfl⟩ := Step.ofExcept_eq_ok.mp hstep
    obtain ⟨mid, _, hcharge, h⟩ := Step.bind_eq_ok.mp h
    obtain ⟨⟨items, _⟩, _, hitems, h⟩ := Step.bind_eq_ok.mp h
    cases h
    rw [← Table.isZeroSized_eq hzero] at hcharge
    exact .inr ⟨by simpa using hnot, _, mid, items, _, _, rfl, hcharge, hitems⟩

theorem read_record_eq_ok (hhead : t.follow type = .ok (.composite (.record fields)))
    (h : read t (limit + 1) type allowance bytes = (.ok (v, left), rest)) :
    ∃ vs, v = .record (Assoc.ofList vs) ∧
      readFields (read t limit) (sortBy (·.id) fields) allowance bytes = (.ok (vs, left), rest) := by
  rw [read, hhead, Step.ofExcept_ok_bind] at h
  obtain ⟨⟨vs, _⟩, _, hvs, h⟩ := Step.bind_eq_ok.mp h
  cases h
  exact ⟨vs, rfl, hvs⟩

theorem read_variant_eq_ok (hhead : t.follow type = .ok (.composite (.variant fields)))
    (h : read t (limit + 1) type allowance bytes = (.ok (v, left), rest)) :
    ∃ f w bytes₁, f ∈ fields ∧ findField? fields f.id = some f ∧ v = .variant f.id w ∧
      read t limit f.type allowance bytes₁ = (.ok (w, left), rest) := by
  rw [read_variant hhead] at h
  obtain ⟨tag, _, _, h⟩ := Step.bind_eq_ok.mp h
  rw [readAlternative] at h
  cases hfind : fields.find? (·.id.toNat == tag.toNat) with
  | none =>
    rw [hfind] at h
    cases h
  | some f =>
    rw [hfind] at h
    obtain ⟨⟨w, _⟩, _, hw, h⟩ := Step.bind_eq_ok.mp h
    cases h
    obtain ⟨_, hmem, hf⟩ := findField?_of_tag hfind
    exact ⟨f, w, _, hmem, hf, rfl, hw⟩

end Inversion

def ReadsBack (t : Table) (limit : Nat) (type : Ty) : Prop :=
  ∀ ⦃v allowance left bytes rest⦄, read t limit type allowance bytes = (.ok (v, left), rest) →
    ReadBack t type limit v ∧ zeroItems t v type + left ≤ allowance

namespace ReadsBack
variable {limit : Nat} {fields : List (Field Ty)}

theorem prim {p : Prim} (hhead : t.follow type = .ok (.prim p)) : ReadsBack t (limit + 1) type := by
  intro v allowance left bytes rest h
  obtain ⟨hv, rfl⟩ := read_prim_eq_ok hhead h
  obtain ⟨⟨rfl, rfl⟩ | ⟨bs, hbs⟩, hchildren, hrecord, hnumbers⟩ := prim_reader_eq_ok hv
  · refine ⟨.of_leaf ⟨[], .reserved hhead⟩ (normal_reserved hhead _) hchildren hrecord hnumbers, ?_⟩
    rw [zeroItems_reserved hhead, Nat.zero_add]
  · exact ReadBack.plain hhead (stops_of_bytes hbs) ⟨bs, .prim hhead hbs⟩ hchildren hrecord hnumbers

theorem flat {c : Composite Ty} (hhead : t.follow type = .ok (.composite c)) {x : Reader Value}
    (hx : c.reader? = some x) : ReadsBack t (limit + 1) type := by
  intro v allowance left bytes rest h
  obtain ⟨hv, rfl⟩ := read_flat_eq_ok hhead hx h
  obtain ⟨⟨bs, hbs⟩, hchildren, hrecord, hnumbers⟩ := flat_reader_eq_ok hx hv
  exact ReadBack.plain hhead (stops_of_flat hx _) ⟨bs, encodes_flat hhead hbs⟩ hchildren hrecord
    hnumbers

theorem opt (hhead : t.follow type = .ok (.composite (.opt inner))) (h : ReadsBack t limit inner) :
    ReadsBack t (limit + 1) type := by
  intro v allowance left bytes rest hread
  obtain ⟨rfl, rfl⟩ | ⟨w, _, rfl, hw⟩ := read_opt_eq_ok hhead hread
  · exact ReadBack.plain (v := .opt none) hhead trivial ⟨_, .none hhead⟩ rfl (by simp)
      (.of_leaf rfl (by simp) (by simp))
  · obtain ⟨hback, hle⟩ := h hw
    exact ⟨.opt hhead hback, by rwa [zeroItems_some hhead]⟩

theorem vec (hhead : t.follow type = .ok (.composite (.vec inner))) (h : ReadsBack t limit inner) :
    ReadsBack t (limit + 1) type := by
  intro v allowance left bytes rest hread
  obtain ⟨hbyte, rfl, bs, rfl⟩ | ⟨hbyte, count, mid, items, _, _, rfl, hcharge, hitems⟩ :=
    read_vec_eq_ok hhead hread
  · exact ReadBack.plain (v := .blob bs) hhead trivial ⟨_, .blob hhead hbyte⟩ rfl (by simp)
      (.of_leaf rfl (by simp) (by simp))
  · have hspent := charge_spends hcharge
    obtain ⟨items, rfl, hlength, hback, hle⟩ := readItems_eq_ok (P := ReadBack t inner limit)
      (g := (zeroItems t · inner)) (fun _ _ _ _ _ hv => h hv) hitems
    refine ⟨.vec hhead hbyte hback, ?_⟩
    simp only [zeroItems_vec hhead, hlength]
    omega

theorem record (hhead : t.follow type = .ok (.composite (.record fields)))
    (hids : (fields.map (·.id)).Nodup) (h : ∀ f ∈ fields, ReadsBack t limit f.type) :
    ReadsBack t (limit + 1) type := by
  intro v allowance left bytes rest hread
  obtain ⟨vs, rfl, hvs⟩ := read_record_eq_ok hhead hread
  obtain ⟨parts, hfields, rfl, hback, hle⟩ := readFields_eq_ok
    (P := fun type v => ReadBack t type limit v) (g := zeroItems t)
    (fun f hf _ _ _ _ _ hv => h f ((sortBy_perm (·.id) fields).mem_iff.mp hf) hv) hvs
  rw [Assoc.ofList_of_ascending (parts_ascending hids hfields _),
    zeroItems_record hhead (find_of_parts hids hfields)]
  exact ⟨.record hhead hids hfields hback, hle⟩

theorem variant (hhead : t.follow type = .ok (.composite (.variant fields)))
    (h : ∀ f ∈ fields, ReadsBack t limit f.type) : ReadsBack t (limit + 1) type := by
  intro v allowance left bytes rest hread
  obtain ⟨f, w, _, hmem, hf, rfl, hw⟩ := read_variant_eq_ok hhead hread
  obtain ⟨hback, hle⟩ := h f hmem hw
  exact ⟨.variant hhead hf hback, by rwa [zeroItems_variant hhead hf]⟩

end ReadsBack

/-- What holds of reading at a type level by level, as each kind of type is built from its members,
holds of all levels. -/
theorem read_induct (hids : t.UniqueIds type) {P : Nat → Ty → Prop} (zero : ∀ type, P 0 type)
    (unbound : ∀ {limit type e}, t.follow type = .error e → P (limit + 1) type)
    (prim : ∀ {limit type p}, t.follow type = .ok (.prim p) → P (limit + 1) type)
    (flat : ∀ {limit type c x}, t.follow type = .ok (.composite c) → c.reader? = some x →
      P (limit + 1) type)
    (opt : ∀ {limit type inner}, t.follow type = .ok (.composite (.opt inner)) → P limit inner →
      P (limit + 1) type)
    (vec : ∀ {limit type inner}, t.follow type = .ok (.composite (.vec inner)) → P limit inner →
      P (limit + 1) type)
    (record : ∀ {limit type fields}, t.follow type = .ok (.composite (.record fields)) →
      (fields.map (·.id)).Nodup → (∀ f ∈ fields, P limit f.type) → P (limit + 1) type)
    (variant : ∀ {limit type fields}, t.follow type = .ok (.composite (.variant fields)) →
      (∀ f ∈ fields, P limit f.type) → P (limit + 1) type) (limit : Nat) : P limit type := by
  induction limit generalizing type with
  | zero => exact zero type
  | succ limit ih =>
    have hmember : ∀ {c m}, t.follow type = .ok (.composite c) → m ∈ c.members → P limit m :=
      fun hhead hm => ih (hids.member (Table.former_eq_some.mpr ⟨_, hhead, rfl⟩) hm)
    cases hhead : t.follow type with
    | error e => exact unbound hhead
    | ok head =>
      cases head with
      | prim p => exact prim hhead
      | composite c =>
        cases c with
        | opt inner => exact opt hhead (hmember hhead (List.mem_singleton_self inner))
        | vec inner => exact vec hhead (hmember hhead (List.mem_singleton_self inner))
        | record fields =>
          have hnodup : (fields.map (·.id)).Nodup :=
            hids _ _ .refl (.inl (Table.former_eq_some.mpr ⟨_, hhead, rfl⟩))
          exact record hhead hnodup fun f hf => hmember hhead (List.mem_map_of_mem hf)
        | variant fields => exact variant hhead fun f hf => hmember hhead (List.mem_map_of_mem hf)
        | func | service | future => exact flat hhead rfl

theorem read_unbound {e : Fault} (h : t.follow type = .error e) (limit allowance : Nat)
    (bytes : List UInt8) : read t (limit + 1) type allowance bytes = (.error e, bytes) := by
  rw [read, h]
  rfl

/-- A value that is read can be written again and read again, with what was spent on it. -/
theorem readBack_of_read (hids : t.UniqueIds type) (limit : Nat) : ReadsBack t limit type := by
  refine read_induct hids (fun _ => nofun) (fun hhead v allowance left bytes rest h => ?_)
    ReadsBack.prim (fun hhead hx => ReadsBack.flat hhead hx) ReadsBack.opt ReadsBack.vec ReadsBack.record ReadsBack.variant limit
  rw [read_unbound hhead] at h
  cases h

end Read

end Value

end Didl
