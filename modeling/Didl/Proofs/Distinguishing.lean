import Didl.Proofs.JsonTexts
import Didl.Proofs.Rendering
import Didl.Proofs.Widening

namespace Didl

namespace Assoc
variable {κ α : Type} [LT κ] [DecidableLT κ] {k : κ} {a : α} {pairs : List (κ × α)}

theorem mem_insert {map : Assoc κ α} {p : κ × α} (h : p ∈ insert k a map) :
    p = (k, a) ∨ p ∈ map := by
  induction map with
  | nil => exact .inl (List.mem_singleton.mp h)
  | cons q map ih =>
    obtain ⟨k', a'⟩ := q
    rw [insert] at h
    split at h
    · rcases List.mem_cons.mp h with rfl | h
      · exact .inr List.mem_cons_self
      · exact (ih h).imp_right (List.mem_cons_of_mem _)
    · split at h
      · exact List.mem_cons.mp h
      · exact (List.mem_cons.mp h).imp_right (List.mem_cons_of_mem _)

/-- What a finite map holds is one of the pairs. -/
theorem mem_of_mem_ofList {p : κ × α} (h : p ∈ ofList pairs) : p ∈ pairs := by
  have hfold : ∀ (todo : List (κ × α)) (map : Assoc κ α),
      p ∈ todo.foldl (fun map p => insert p.1 p.2 map) map → p ∈ todo ∨ p ∈ map := by
    intro todo
    induction todo with
    | nil => exact fun map h => .inr h
    | cons q todo ih =>
      intro map h
      rcases ih _ h with h | h
      · exact .inl (List.mem_cons_of_mem _ h)
      · rcases mem_insert h with rfl | h
        · exact .inl List.mem_cons_self
        · exact .inr h
  simpa using hfold pairs [] h

variable [Std.Trichotomous (α := κ) (· < ·)]

theorem insert_perm {map : Assoc κ α} (h : k ∉ map.map Prod.fst) :
    (insert k a map).Perm ((k, a) :: map) := by
  induction map with
  | nil => exact .refl _
  | cons q map ih =>
    obtain ⟨k', a'⟩ := q
    obtain ⟨hne, hmap⟩ := not_or.mp (mt List.mem_cons.mpr h)
    rw [insert]
    split
    · exact ((ih hmap).cons _).trans (.swap _ _ _)
    · rename_i hlt
      split
      · exact .refl _
      · rename_i hgt
        exact absurd (Std.Trichotomous.trichotomous k k' hgt hlt) hne

/-- Pairs with distinct keys are all held. -/
theorem ofList_perm (h : (pairs.map Prod.fst).Nodup) : (ofList pairs).Perm pairs := by
  have hfold : ∀ (todo : List (κ × α)) (map : Assoc κ α), ((todo ++ map).map Prod.fst).Nodup →
      (todo.foldl (fun map p => insert p.1 p.2 map) map).Perm (todo ++ map) := by
    intro todo
    induction todo with
    | nil => exact fun map _ => .refl _
    | cons q todo ih =>
      intro map hnodup
      have hinsert : (insert q.1 q.2 map).Perm (q :: map) := by
        refine insert_perm fun hmem => ?_
        rw [List.cons_append, List.map_cons, List.map_append] at hnodup
        exact (List.nodup_cons.mp hnodup).1 (List.mem_append_right _ hmem)
      have hmore : (todo ++ insert q.1 q.2 map).Perm (q :: (todo ++ map)) :=
        (hinsert.append_left todo).trans List.perm_middle
      exact (ih _ ((hmore.map Prod.fst).nodup_iff.mpr hnodup)).trans hmore
  have hpairs := hfold pairs [] (by simpa using h)
  rwa [List.append_nil] at hpairs

end Assoc

namespace Json

/-- Of two objects that are one the members have the same values, if no key comes twice. -/
theorem object_inj {members members' : List (String × Json)} (hnodup : (members.map Prod.fst).Nodup)
    (hnodup' : (members'.map Prod.fst).Nodup) (h : object members = object members') {key : String}
    {j j' : Json} (hj : (key, j) ∈ members) (hj' : (key, j') ∈ members') : j = j' := by
  have heq : Assoc.ofList members = Assoc.ofList members' := fields.inj h
  have hmem : (key, j) ∈ members' := by
    rw [← (Assoc.ofList_perm hnodup').mem_iff, ← heq, (Assoc.ofList_perm hnodup).mem_iff]
    exact hj
  exact congrArg Prod.snd (List.inj_on_of_nodup_map hnodup' hmem hj' rfl)

theorem ofNat_injective {m n : Nat} (h : ofNat m = ofNat n) : m = n := by
  unfold ofNat at h
  split at h <;> split at h
  · exact Int.ofNat_inj.mp (number.inj h)
  · cases h
  · cases h
  · exact Nat.repr_inj.mp (string.inj h)

theorem ofInt_injective {i k : Int} (h : ofInt i = ofInt k) : i = k := by
  unfold ofInt at h
  split at h <;> split at h
  · exact number.inj h
  · cases h
  · cases h
  · exact Int.repr_inj.mp (string.inj h)

theorem ofBytes_injective {as bs : List UInt8} (h : ofBytes as = ofBytes bs) : as = bs :=
  hex_injective (string.inj h)

theorem ofReference_injective {a b : Option (List UInt8)} (h : ofReference a = ofReference b) :
    a = b := by
  cases a <;> cases b
  · rfl
  · cases h
  · cases h
  · exact congrArg some (ofBytes_injective h)

theorem ofFunc_injective {a b : Option FuncRef} (h : ofFunc a = ofFunc b) : a = b := by
  cases a <;> cases b
  · rfl
  · cases h
  · cases h
  · rename_i a b
    have hnodup : ∀ a : FuncRef, ([("service", ofReference a.service),
        ("method", .string a.method)].map (Prod.fst (β := Json))).Nodup := by simp
    have hservice := object_inj (hnodup a) (hnodup b) h List.mem_cons_self List.mem_cons_self
    have hmethod := object_inj (hnodup a) (hnodup b) h
      (List.mem_cons_of_mem _ List.mem_cons_self) (List.mem_cons_of_mem _ List.mem_cons_self)
    obtain ⟨service, method⟩ := a
    obtain ⟨service', method'⟩ := b
    obtain rfl : service = service' := ofReference_injective hservice
    obtain rfl : method = method' := string.inj hmethod
    rfl

end Json

/-- In no record and no variant that a type leads to are two fields shown under one key. -/
def Table.UniqueKeys (t : Table) (type : Ty) : Prop :=
  ∀ u fields, t.Reach type u → t.former u = some (.composite (.record fields)) ∨
    t.former u = some (.composite (.variant fields)) → (fields.map Field.key).Nodup

theorem Table.UniqueKeys.member {t : Table} {type m : Ty} {f : Former Ty} (h : t.UniqueKeys type)
    (hf : t.former type = some f) (hm : m ∈ f.members) : t.UniqueKeys m :=
  fun u fields hu hfields => h u fields (.trans (.member .refl hf hm) hu) hfields

namespace Value

structure FiniteFloats (v : Value) : Prop where
  single : ∀ bits, v.Within (.float32 bits) → Decimal.Format.single.Finite bits.toNat
  double : ∀ bits, v.Within (.float64 bits) → Decimal.Format.double.Finite bits.toNat

theorem FiniteFloats.child {v w : Value} (h : v.FiniteFloats) (hw : w ∈ v.children) :
    w.FiniteFloats :=
  ⟨fun bits hbits => h.single bits (.of_child hw hbits),
    fun bits hbits => h.double bits (.of_child hw hbits)⟩

theorem FiniteFloats.of_children {v : Value} (h : ∀ w ∈ v.children, w.FiniteFloats)
    (hsingle : ∀ bits, v = .float32 bits → Decimal.Format.single.Finite bits.toNat)
    (hdouble : ∀ bits, v = .float64 bits → Decimal.Format.double.Finite bits.toNat) :
    v.FiniteFloats := by
  constructor
  · intro bits hbits
    rcases within_iff.mp hbits with rfl | ⟨w, hw, hwithin⟩
    · exact hsingle bits rfl
    · exact (h w hw).single bits hwithin
  · intro bits hbits
    rcases within_iff.mp hbits with rfl | ⟨w, hw, hwithin⟩
    · exact hdouble bits rfl
    · exact (h w hw).double bits hwithin

section Numeric
variable {t : Table} {type : Ty}

theorem numeric_ofNat (n : Nat) : (Json.ofNat n).Numeric := by
  unfold Json.ofNat
  split
  · exact .number n
  · exact .string _

theorem numeric_ofInt (i : Int) : (Json.ofInt i).Numeric := by
  unfold Json.ofInt
  split
  · exact .number i
  · exact .string _

theorem numeric_ofReference (id : Option (List UInt8)) : (Json.ofReference id).Numeric := by
  cases id with
  | none => exact .null
  | some id => exact .string _

theorem numeric_object {members : List (String × Json)} (h : ∀ m ∈ members, m.2.Numeric) :
    (Json.object members).Numeric :=
  .fields fun m hm => h m (Assoc.mem_of_mem_ofList hm)

theorem numeric_ofFunc (ref : Option FuncRef) : (Json.ofFunc ref).Numeric := by
  cases ref with
  | none => exact .null
  | some ref =>
    refine numeric_object ?_
    simpa using ⟨numeric_ofReference ref.service, .string ref.method⟩

/-- The floats of a document are those of the value, a single in double width. -/
theorem numeric_plain {v : Value} {j : Json} (hv : v.FiniteFloats) (h : plainJson? v = some j) :
    j.Numeric := by
  cases v with
  | nat n => cases h; exact numeric_ofNat n
  | int i => cases h; exact numeric_ofInt i
  | float32 bits =>
    cases h
    obtain ⟨hlt, hfinite⟩ := Decimal.widen_finite (hv.single bits .refl)
    exact .float (by rwa [UInt64.toNat_ofNat_of_lt' hlt])
  | float64 bits => cases h; exact .float (hv.double bits .refl)
  | principal id | service id => cases h; exact numeric_ofReference id
  | func ref => cases h; exact numeric_ofFunc ref
  | _ => cases h <;> constructor

theorem json_numeric {v : Value} (h : Fits t v type) (hv : v.FiniteFloats) {j : Json}
    (hj : v.json t type = .ok j) : j.Numeric := by
  induction h generalizing j with
  | prim hhead hp =>
    obtain ⟨j', hj'⟩ := exists_plainJson hp
    rw [json_plain hhead hj'] at hj
    cases hj
    exact numeric_plain hv hj'
  | none hhead =>
    rw [json_none hhead] at hj
    cases hj
    exact .array nofun
  | some hhead hw ih =>
    obtain ⟨j', hj'⟩ := json_of_fits hw
    rw [json_some hhead, hj'] at hj
    cases hj
    refine .array fun item hitem => ?_
    rw [List.mem_singleton.mp hitem]
    exact ih (hv.child List.mem_cons_self) hj'
  | vec hhead _ hitems ih =>
    obtain ⟨js, hjs⟩ := exists_forall₂ fun w hw => json_of_fits (hitems w hw)
    rw [json_vec hhead, jsonItems_ok hjs []] at hj
    cases hj
    refine .array fun item hitem => ?_
    obtain ⟨w, hw, hjw⟩ := exists_of_mem_right hjs hitem
    exact ih w hw (hv.child hw) hjw
  | record hhead hkeys hvalues ih =>
    obtain ⟨members, hmembers⟩ :=
      exists_members hkeys fun p hp f hf hid => json_of_fits (hvalues p hp f hf hid)
    rw [json_record hhead, jsonMembers_ok hmembers] at hj
    cases hj
    refine numeric_object fun m hm => ?_
    obtain ⟨f, hf, _, w, hw, hjw⟩ := exists_of_mem_right hmembers hm
    obtain ⟨w', hw', hmem⟩ := exists_lookup_of_keys hkeys hf
    cases hw.symm.trans hw'
    exact ih _ hmem f hf rfl (hv.child (List.mem_map_of_mem hmem)) hjw
  | variant hhead hf hw ih =>
    obtain ⟨j', hj'⟩ := json_of_fits hw
    rw [json_variant hhead hf, hj'] at hj
    cases hj
    refine numeric_object fun m hm => ?_
    rw [List.mem_singleton.mp hm]
    exact ih (hv.child List.mem_cons_self) hj'
  | blob bytes hhead | func ref hhead | service id hhead | future bytes hhead =>
    rw [json_plain hhead rfl] at hj
    cases hj
    exact numeric_plain hv rfl

end Numeric

theorem eq_of_plain {p : Prim} {v w : Value} (hv : p.Holds v) (hw : p.Holds w)
    (hfv : v.FiniteFloats) (hfw : w.FiniteFloats) (h : plainJson? v = plainJson? w) : v = w := by
  cases hv with
  | null | reserved =>
    cases hw
    rfl
  | nat m =>
    cases hw
    rw [Json.ofNat_injective (Option.some.inj h)]
  | int i =>
    cases hw
    rw [Json.ofInt_injective (Option.some.inj h)]
  | principal id =>
    cases hw
    rw [Json.ofReference_injective (Option.some.inj h)]
  | float32 bits =>
    cases hw with
    | float32 bits' =>
      have hf := hfv.single bits .refl
      have hf' := hfw.single bits' .refl
      have hwide := congrArg UInt64.toNat (Json.float.inj (Option.some.inj h))
      rw [UInt64.toNat_ofNat_of_lt' (Decimal.widen_finite hf).1,
        UInt64.toNat_ofNat_of_lt' (Decimal.widen_finite hf').1] at hwide
      rw [UInt32.toNat_inj.mp (Decimal.widen_injective bits.toNat_lt bits'.toNat_lt hf hf' hwide)]
  | _ =>
    cases hw
    simpa [plainJson?, UInt8.toNat_inj, UInt16.toNat_inj, UInt32.toNat_inj, UInt64.toNat_inj,
      Int8.toInt_inj, Int16.toInt_inj, Int32.toInt_inj, Int64.toInt_inj] using h

theorem eq_of_flat {c : Composite Ty} {v w : Value} {bytes bytes' : List UInt8}
    (hv : c.bytes? v = some bytes) (hw : c.bytes? w = some bytes')
    (h : plainJson? v = plainJson? w) : v = w := by
  cases c <;> cases v <;> cases hv <;> cases w <;> cases hw
  · rw [Json.ofFunc_injective (Option.some.inj h)]
  · rw [Json.ofReference_injective (Option.some.inj h)]
  · rw [Json.ofBytes_injective (Option.some.inj h)]

/-- Records with the same fields are one if each field has the same value. -/
theorem eq_of_keys {values values' : List (UInt32 × Value)}
    (hkeys : values.map Prod.fst = values'.map Prod.fst)
    (h : ∀ p ∈ values, ∀ q ∈ values', p.1 = q.1 → p.2 = q.2) : values = values' := by
  induction values generalizing values' with
  | nil => exact (List.map_eq_nil_iff.mp hkeys.symm).symm
  | cons p values ih => cases values' with
    | nil => cases hkeys
    | cons q values' =>
      obtain ⟨hpq, hkeys⟩ := List.cons.inj hkeys
      rw [Prod.ext hpq (h p List.mem_cons_self q List.mem_cons_self hpq),
        ih hkeys fun p hp q hq => h p (List.mem_cons_of_mem _ hp) q (List.mem_cons_of_mem _ hq)]

/-- Lists that are told apart element by element are one if they are related to one list. -/
theorem eq_of_forall₂ {α β : Type} {R : α → β → Prop} {as bs : List α} {cs : List β}
    (h : List.Forall₂ R as cs) (h' : List.Forall₂ R bs cs)
    (hinj : ∀ a ∈ as, ∀ b ∈ bs, ∀ c, R a c → R b c → a = b) : as = bs := by
  induction h generalizing bs with
  | nil =>
    cases h'
    rfl
  | cons hac _ ih =>
    cases h' with
    | cons hbc htail =>
      rw [hinj _ List.mem_cons_self _ List.mem_cons_self _ hac hbc,
        ih htail fun a ha b hb => hinj a (List.mem_cons_of_mem _ ha) b (List.mem_cons_of_mem _ hb)]

section Values
variable {t : Table} {type : Ty} {fields : List (Field Ty)}

theorem findField?_eq_some {id : UInt32} {f : Field Ty} (h : findField? fields id = some f) :
    f.id = id ∧ f ∈ fields :=
  ⟨by simpa using List.find?_some h, List.mem_of_find?_eq_some h⟩

theorem keys_of_shows {values : List (UInt32 × Value)} {members : List (String × Json)}
    (h : List.Forall₂ (ShowsField t values) fields members) :
    members.map Prod.fst = fields.map Field.key := by
  induction h with
  | nil => rfl
  | cons hm _ ih => rw [List.map_cons, List.map_cons, ih, hm.1]

/-- A field is shown with the value that the record has for it. -/
theorem exists_member {values : List (UInt32 × Value)} {members : List (String × Json)}
    (hids : (fields.map (·.id)).Nodup)
    (hkeys : values.map Prod.fst = (sortBy (·.id) fields).map (·.id))
    (h : List.Forall₂ (ShowsField t values) fields members) {f : Field Ty} (hf : f ∈ fields)
    {p : UInt32 × Value} (hp : p ∈ values) (hid : f.id = p.1) :
    ∃ j, (f.key, j) ∈ members ∧ p.2.json t f.type = .ok j := by
  have hnodup : (values.map Prod.fst).Nodup := by
    rw [hkeys]
    exact ((sortBy_perm (·.id) fields).map (·.id)).nodup_iff.mpr hids
  obtain ⟨m, hm, hkey, u, hu, hj⟩ := exists_of_mem_right h.flip hf
  obtain ⟨u', hu', hmem⟩ := exists_lookup_of_keys hkeys hf
  cases hu.symm.trans hu'
  obtain rfl := List.inj_on_of_nodup_map hnodup hp hmem hid.symm
  exact ⟨m.2, hkey ▸ hm, hj⟩

/-- Records that are shown as one object are one, if fields that are shown alike are. -/
theorem eq_of_object {values values' : List (UInt32 × Value)}
    {members members' : List (String × Json)}
    (hids : (fields.map (·.id)).Nodup) (hkeys : (fields.map Field.key).Nodup)
    (hvalues : values.map Prod.fst = (sortBy (·.id) fields).map (·.id))
    (hvalues' : values'.map Prod.fst = (sortBy (·.id) fields).map (·.id))
    (hmembers : List.Forall₂ (ShowsField t values) fields members)
    (hmembers' : List.Forall₂ (ShowsField t values') fields members')
    (h : Json.object members = Json.object members')
    (hfield : ∀ f ∈ fields, ∀ p ∈ values, ∀ q ∈ values', f.id = p.1 → f.id = q.1 →
      p.2.json t f.type = q.2.json t f.type → p.2 = q.2) : values = values' := by
  refine eq_of_keys (hvalues.trans hvalues'.symm) fun p hp q hq hpq => ?_
  have hpid : p.1 ∈ (sortBy (·.id) fields).map (·.id) := hvalues ▸ List.mem_map_of_mem hp
  obtain ⟨f, hmem, hid⟩ := List.mem_map.mp hpid
  have hf : f ∈ fields := (sortBy_perm (·.id) fields).mem_iff.mp hmem
  obtain ⟨j, hj, hjson⟩ := exists_member hids hvalues hmembers hf hp hid
  obtain ⟨j', hj', hjson'⟩ := exists_member hids hvalues' hmembers' hf hq (hid.trans hpq)
  have hshown : j = j' := Json.object_inj ((keys_of_shows hmembers).symm ▸ hkeys)
    ((keys_of_shows hmembers').symm ▸ hkeys) h hj hj'
  exact hfield f hf p hp q hq hid (hid.trans hpq) (by rw [hjson, hjson', hshown])

/-- No other value of the type is shown as the value is. -/
def Apart (t : Table) (type : Ty) (v : Value) : Prop :=
  ∀ ⦃w⦄, Fits t w type → w.FiniteFloats → v.json t type = w.json t type → v = w

namespace Apart
variable {inner : Ty} {v : Value}

theorem plainJson_eq {head : Head} {w : Value} (hhead : t.follow type = .ok head)
    (hv : ∃ j, plainJson? v = some j) (hw : ∃ j, plainJson? w = some j)
    (h : v.json t type = w.json t type) : plainJson? v = plainJson? w := by
  obtain ⟨j, hj⟩ := hv
  obtain ⟨j', hj'⟩ := hw
  rw [json_plain hhead hj, json_plain hhead hj'] at h
  rw [hj, hj', Except.ok.inj h]

theorem prim {p : Prim} (hhead : t.follow type = .ok (.prim p)) (hp : p.Holds v)
    (hv : v.FiniteFloats) : Apart t type v := by
  intro w hw hfw h
  have hp' : p.Holds w := hw.head hhead
  exact eq_of_plain hp hp' hv hfw
    (plainJson_eq hhead (exists_plainJson hp) (exists_plainJson hp') h)

theorem flat {c : Composite Ty} (hhead : t.follow type = .ok (.composite c)) {bytes : List UInt8}
    (hbytes : c.bytes? v = some bytes) : Apart t type v := by
  intro w hw _ h
  have hflat : ∀ {v : Value} {bs}, c.bytes? v = some bs → ∃ j, plainJson? v = some j := by
    intro v bs hbs
    cases c <;> cases v <;> cases hbs <;> exact ⟨_, rfl⟩
  obtain ⟨bytes', hbytes'⟩ : ∃ bytes, c.bytes? w = some bytes := by
    have hform := hw.head hhead
    cases c <;> first | exact hform | cases v <;> cases hbytes
  exact eq_of_flat hbytes hbytes' (plainJson_eq hhead (hflat hbytes) (hflat hbytes') h)

theorem blob (hhead : t.follow type = .ok (.composite (.vec inner)))
    (hbyte : t.isByte inner = true) (bytes : List UInt8) : Apart t type (.blob bytes) := by
  intro w hw _ h
  have hform := hw.head hhead
  rw [FitsHead, if_pos hbyte] at hform
  obtain ⟨bytes', rfl⟩ := hform
  have hplain := plainJson_eq hhead ⟨_, rfl⟩ ⟨_, rfl⟩ h
  rw [Json.ofBytes_injective (Option.some.inj hplain)]

theorem absent (hhead : t.follow type = .ok (.composite (.opt inner))) : Apart t type (.opt none) := by
  intro w hw _ h
  obtain rfl | ⟨u, rfl, hu⟩ := hw.head hhead
  · rfl
  · obtain ⟨j, hj⟩ := json_of_fits hu
    rw [json_none hhead, json_some hhead, hj] at h
    cases h

theorem present (hhead : t.follow type = .ok (.composite (.opt inner))) (hv : Fits t v inner)
    (hapart : Apart t inner v) : Apart t type (.opt (some v)) := by
  intro w hw hfw h
  obtain ⟨j, hj⟩ := json_of_fits hv
  obtain rfl | ⟨u, rfl, hu⟩ := hw.head hhead
  · rw [json_none hhead, json_some hhead, hj] at h
    cases h
  · obtain ⟨j', hj'⟩ := json_of_fits hu
    rw [json_some hhead, json_some hhead, hj, hj'] at h
    cases h
    rw [hapart hu (hfw.child List.mem_cons_self) (hj.trans hj'.symm)]

theorem vec (hhead : t.follow type = .ok (.composite (.vec inner))) (hbyte : t.isByte inner = false)
    {items : List Value} (hitems : ∀ v ∈ items, Fits t v inner)
    (hapart : ∀ v ∈ items, Apart t inner v) : Apart t type (.vec items) := by
  intro w hw hfw h
  have hform := hw.head hhead
  rw [FitsHead, if_neg (by simp [hbyte])] at hform
  obtain ⟨items', rfl, hitems'⟩ := hform
  obtain ⟨js, hjs⟩ := exists_forall₂ fun w hw => json_of_fits (hitems w hw)
  obtain ⟨js', hjs'⟩ := exists_forall₂ fun w hw => json_of_fits (hitems' w hw)
  rw [json_vec hhead, json_vec hhead, jsonItems_ok hjs [], jsonItems_ok hjs' []] at h
  obtain rfl : js = js' := Json.array.inj (Except.ok.inj h)
  rw [eq_of_forall₂ hjs hjs' fun v hv w hw j hj hj' =>
    hapart v hv (hitems' w hw) (hfw.child hw) (hj.trans hj'.symm)]

theorem record (hhead : t.follow type = .ok (.composite (.record fields)))
    (hids : (fields.map (·.id)).Nodup) (hkeys : (fields.map Field.key).Nodup)
    {values : List (UInt32 × Value)}
    (hvalues : values.map Prod.fst = (sortBy (·.id) fields).map (·.id))
    (hfits : ∀ p ∈ values, ∀ f ∈ fields, f.id = p.1 → Fits t p.2 f.type)
    (hapart : ∀ p ∈ values, ∀ f ∈ fields, f.id = p.1 → Apart t f.type p.2) :
    Apart t type (.record values) := by
  intro w hw hfw h
  obtain ⟨values', rfl, hvalues', hfits'⟩ := hw.head hhead
  obtain ⟨members, hmembers⟩ :=
    exists_members hvalues fun p hp f hf hid => json_of_fits (hfits p hp f hf hid)
  obtain ⟨members', hmembers'⟩ :=
    exists_members hvalues' fun p hp f hf hid => json_of_fits (hfits' p hp f hf hid)
  rw [json_record hhead, json_record hhead, jsonMembers_ok hmembers, jsonMembers_ok hmembers'] at h
  refine congrArg Value.record (eq_of_object hids hkeys hvalues hvalues' hmembers hmembers'
    (Except.ok.inj h) fun f hf p hp q hq hid hid' hj => ?_)
  exact hapart p hp f hf hid (hfits' q hq f hf hid') (hfw.child (List.mem_map_of_mem hq)) hj

theorem variant (hhead : t.follow type = .ok (.composite (.variant fields)))
    (hkeys : (fields.map Field.key).Nodup) {f : Field Ty} {id : UInt32}
    (hf : findField? fields id = some f) (hv : Fits t v f.type) (hapart : Apart t f.type v) :
    Apart t type (.variant id v) := by
  intro w hw hfw h
  obtain ⟨g, id', u, rfl, hg, hu⟩ := hw.head hhead
  obtain ⟨j, hj⟩ := json_of_fits hv
  obtain ⟨j', hj'⟩ := json_of_fits hu
  rw [json_variant hhead hf, json_variant hhead hg, hj, hj'] at h
  obtain ⟨hkey, rfl⟩ : f.key = g.key ∧ j = j' := by
    simpa [Json.object, Assoc.ofList, Assoc.insert] using Json.fields.inj (Except.ok.inj h)
  obtain ⟨rfl, hmem⟩ := findField?_eq_some hf
  obtain ⟨rfl, hmem'⟩ := findField?_eq_some hg
  obtain rfl := List.inj_on_of_nodup_map hkeys hmem hmem' hkey
  rw [hapart hu (hfw.child List.mem_cons_self) (hj.trans hj'.symm)]

end Apart

/-- Values of a type that are shown alike are one. -/
theorem apart_of_fits {v : Value} (hv : Fits t v type) (hids : t.UniqueIds type)
    (hkeys : t.UniqueKeys type) (hfv : v.FiniteFloats) : Apart t type v := by
  have hmember : ∀ {type c m}, t.UniqueIds type → t.UniqueKeys type →
      t.follow type = .ok (.composite c) → m ∈ c.members → t.UniqueIds m ∧ t.UniqueKeys m := by
    intro type c m hids hkeys hhead hm
    have hformer := Table.former_eq_some.mpr ⟨_, hhead, rfl⟩
    exact ⟨hids.member hformer hm, hkeys.member hformer hm⟩
  induction hv with
  | prim hhead hp => exact .prim hhead hp hfv
  | none hhead => exact .absent hhead
  | some hhead hv ih =>
    obtain ⟨hids', hkeys'⟩ := hmember hids hkeys hhead (List.mem_singleton_self _)
    exact .present hhead hv (ih hids' hkeys' (hfv.child List.mem_cons_self))
  | blob bytes hhead hbyte => exact .blob hhead hbyte bytes
  | vec hhead hbyte hitems ih =>
    obtain ⟨hids', hkeys'⟩ := hmember hids hkeys hhead (List.mem_singleton_self _)
    exact .vec hhead hbyte hitems fun v hv => ih v hv hids' hkeys' (hfv.child hv)
  | record hhead hvalues hfits ih =>
    have hformer := Table.former_eq_some.mpr ⟨_, hhead, rfl⟩
    refine .record hhead (hids _ _ .refl (.inl hformer)) (hkeys _ _ .refl (.inl hformer)) hvalues
      hfits ?_
    intro p hp f hf hid
    obtain ⟨hids', hkeys'⟩ := hmember hids hkeys hhead (List.mem_map_of_mem hf)
    exact ih p hp f hf hid hids' hkeys' (hfv.child (List.mem_map_of_mem hp))
  | variant hhead hf hv ih =>
    have hformer := Table.former_eq_some.mpr ⟨_, hhead, rfl⟩
    obtain ⟨hids', hkeys'⟩ := hmember hids hkeys hhead
      (List.mem_map_of_mem (List.mem_of_find?_eq_some hf))
    exact .variant hhead (hkeys _ _ .refl (.inr hformer)) hf hv
      (ih hids' hkeys' (hfv.child List.mem_cons_self))
  | func _ hhead | service _ hhead | future _ hhead => exact .flat hhead rfl

end Values

def numberAnd (name : String) : Ty :=
  .composite (.record [⟨5, none, .prim .nat⟩, ⟨labelId name, some name, .prim .text⟩])

theorem numberAnd_reach {t : Table} {name : String} {u : Ty} (h : t.Reach (numberAnd name) u) :
    u = numberAnd name ∨ u = .prim .nat ∨ u = .prim .text := by
  refine h.invariant (P := fun u => u = numberAnd name ∨ u = .prim .nat ∨ u = .prim .text) ?_
    (.inl rfl)
  rintro _ f (rfl | rfl | rfl) hf v hv <;> cases hf
  · rcases List.mem_cons.mp hv with rfl | hv
    · exact .inr (.inl rfl)
    · exact .inr (.inr (List.mem_singleton.mp hv))
  · cases hv
  · cases hv

theorem numberAnd_uniqueIds (t : Table) {name : String} (h : labelId name ≠ 5) :
    t.UniqueIds (numberAnd name) := by
  intro u fields hu hfields
  rcases numberAnd_reach hu with rfl | rfl | rfl <;> rcases hfields with hf | hf <;> cases hf
  simpa using h.symm

theorem numberAnd_uniqueKeys (t : Table) {name : String} (h : name ≠ "5") :
    t.UniqueKeys (numberAnd name) := by
  intro u fields hu hfields
  rcases numberAnd_reach hu with rfl | rfl | rfl <;> rcases hfields with hf | hf <;> cases hf
  have hkey : Nat.repr 5 = "5" := rfl
  simpa [Field.key, hkey] using h.symm

theorem numberAnd_finite (id : UInt32) (n : Nat) (s : String) :
    (record [(5, .nat n), (id, .text s)]).FiniteFloats := by
  have hleaf : ∀ {v : Value}, v.children = [] → (∀ bits, v ≠ .float32 bits) →
      (∀ bits, v ≠ .float64 bits) → v.FiniteFloats := by
    intro v hv h32 h64
    exact .of_children (by simp [hv]) (fun bits h => absurd h (h32 bits))
      fun bits h => absurd h (h64 bits)
  refine .of_children (List.forall_mem_cons.mpr ⟨?_, List.forall_mem_singleton.mpr ?_⟩) nofun nofun
  · exact hleaf rfl nofun nofun
  · exact hleaf rfl nofun nofun

/-- No two values that can be read as a type are shown as one text, where every float is finite and
no two fields are shown under one key. -/
theorem eq_of_compact_eq {t : Table} {type : Ty} (hids : t.UniqueIds type)
    (hkeys : t.UniqueKeys type) {v w : Value} {bytes bytes' rest rest' : List UInt8}
    (hv : reader t type bytes = (.ok v, rest))
    (hw : reader t type bytes' = (.ok w, rest')) (hfv : v.FiniteFloats) (hfw : w.FiniteFloats) :
    ∃ j j', v.json t type = .ok j ∧ w.json t type = .ok j' ∧ (j.compact = j'.compact → v = w) := by
  have hfits : ∀ {v bytes rest}, reader t type bytes = (.ok v, rest) → Fits t v type := by
    intro v bytes rest h
    obtain ⟨⟨u, _⟩, _, hread, h⟩ := Step.bind_eq_ok.mp h
    cases h
    exact fits_of_read hids _ hread
  obtain ⟨j, hj⟩ := json_of_fits (hfits hv)
  obtain ⟨j', hj'⟩ := json_of_fits (hfits hw)
  refine ⟨j, j', hj, hj', fun h => apart_of_fits (hfits hv) hids hkeys hfv (hfits hw) hfw ?_⟩
  rw [hj, hj', Json.compact_injective (json_numeric (hfits hv) hfv hj)
    (json_numeric (hfits hw) hfw hj') h]

/-- Under another name than that number both fields are shown. -/
theorem eq_of_compact_eq_named : ∃ j j',
    (record [(5, .nat 1), (120, .text "a")]).json {} (numberAnd "x") = .ok j ∧
    (record [(5, .nat 3), (120, .text "a")]).json {} (numberAnd "x") = .ok j' ∧
    j.compact ≠ j'.compact := by
  have hread : reader {} (numberAnd "x") [1, 1, 97] =
      (.ok (record [(5, .nat 1), (120, .text "a")]), []) := by cbv
  have hread' : reader {} (numberAnd "x") [3, 1, 97] =
      (.ok (record [(5, .nat 3), (120, .text "a")]), []) := by cbv
  obtain ⟨j, j', hj, hj', h⟩ := eq_of_compact_eq (numberAnd_uniqueIds {} (by decide))
    (numberAnd_uniqueKeys {} (by decide)) hread hread' (numberAnd_finite _ _ _)
    (numberAnd_finite _ _ _)
  refine ⟨j, j', hj, hj', fun heq => ?_⟩
  simpa using h heq

/-- A field whose name is the number of another one hides it. -/
theorem compact_hides_number : Table.UniqueIds {} (numberAnd "5") ∧ ∃ v w : Value, v ≠ w ∧
    reader {} (numberAnd "5") [1, 1, 97] = (.ok v, []) ∧
    reader {} (numberAnd "5") [3, 1, 97] = (.ok w, []) ∧
    v.FiniteFloats ∧ w.FiniteFloats ∧
    ∃ j, v.json {} (numberAnd "5") = .ok j ∧ w.json {} (numberAnd "5") = .ok j ∧
      j.compact = "\x7b\"5\":\"a\"\x7d" := by
  have hne : record [(5, .nat 1), (53, .text "a")] ≠ record [(5, .nat 3), (53, .text "a")] := by
    simp
  exact ⟨numberAnd_uniqueIds {} (by decide), _, _, hne, by cbv, by cbv, numberAnd_finite _ _ _,
    numberAnd_finite _ _ _, .fields [("5", .string "a")], by cbv, by cbv, by cbv⟩

end Value

end Didl
