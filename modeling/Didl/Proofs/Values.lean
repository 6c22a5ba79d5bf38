import Mathlib
import Didl.Proofs.ReadAlike

namespace Didl.Value

def children : Value → List Value
  | opt (some w) => [w]
  | vec items => items
  | record fields => fields.map Prod.snd
  | variant _ w => [w]
  | _ => []

theorem sizeOf_lt_of_mem {v w : Value} (h : w ∈ v.children) : sizeOf w < sizeOf v := by
  cases v with
  | opt inner =>
    cases inner with
    | none => cases h
    | some u =>
      rw [List.mem_singleton.mp h, opt.sizeOf_spec, Option.some.sizeOf_spec]
      omega
  | vec items =>
    have hlt : sizeOf w < sizeOf items := List.sizeOf_lt_of_mem h
    rw [vec.sizeOf_spec]
    omega
  | record fields =>
    obtain ⟨⟨id, u⟩, hp, rfl⟩ := List.mem_map.mp h
    have hlt := List.sizeOf_lt_of_mem hp
    rw [Prod.mk.sizeOf_spec] at hlt
    rw [record.sizeOf_spec]
    change sizeOf u < _
    omega
  | variant id u =>
    rw [List.mem_singleton.mp h, variant.sizeOf_spec]
    omega
  | _ => cases h

/-- What holds of a value wherever it holds of the values in it holds of every value. -/
@[elab_as_elim]
theorem induct {P : Value → Prop} (step : ∀ v, (∀ w ∈ v.children, P w) → P v) (v : Value) : P v :=
  step v fun w _ => induct step w
termination_by sizeOf v
decreasing_by exact sizeOf_lt_of_mem ‹_›

def depth (v : Value) : Nat :=
  (v.children.attach.map fun w => depth w.1 + 1).foldr max 0
termination_by sizeOf v
decreasing_by exact sizeOf_lt_of_mem w.2

theorem depth_lt_of_mem {v w : Value} (h : w ∈ v.children) : w.depth < v.depth := by
  have hmax : ∀ {ns : List Nat} {n : Nat}, n ∈ ns → n ≤ ns.foldr max 0 := by
    intro ns n hn
    induction ns with
    | nil => cases hn
    | cons m ns ih =>
      rcases List.mem_cons.mp hn with rfl | hn
      · exact Nat.le_max_left _ _
      · exact Nat.le_trans (ih hn) (Nat.le_max_right _ _)
  rw [depth.eq_1 v]
  exact hmax (List.mem_map.mpr ⟨⟨w, h⟩, List.mem_attach _ _, rfl⟩)

inductive Within (v : Value) : Value → Prop
  | refl : Within v v
  | child {u w : Value} : Within v u → w ∈ u.children → Within v w

theorem Within.of_child {v w u : Value} (h : w ∈ v.children) (hu : w.Within u) : v.Within u := by
  induction hu with
  | refl => exact .child .refl h
  | child _ hw ih => exact .child ih hw

theorem within_iff {v u : Value} : v.Within u ↔ u = v ∨ ∃ w ∈ v.children, w.Within u := by
  constructor
  · intro h
    induction h with
    | refl => exact .inl rfl
    | child _ hw ih =>
      rcases ih with rfl | ⟨w', hw', hwithin⟩
      · exact .inr ⟨_, hw, .refl⟩
      · exact .inr ⟨w', hw', .child hwithin hw⟩
  · rintro (rfl | ⟨w, hw, h⟩)
    · exact .refl
    · exact .of_child hw h

/-- The fields of every record are in the order of their numbers, and none comes twice. -/
def Ordered (v : Value) : Prop :=
  ∀ fields, v.Within (.record fields) → fields.Pairwise fun p q => p.1 < q.1

theorem Ordered.child {v w : Value} (h : v.Ordered) (hw : w ∈ v.children) : w.Ordered :=
  fun fields hf => h fields (.of_child hw hf)

theorem Ordered.of_children {v : Value} (h : ∀ w ∈ v.children, w.Ordered)
    (hv : ∀ fields, v = .record fields → fields.Pairwise fun p q => p.1 < q.1) : v.Ordered := by
  intro fields hf
  rcases within_iff.mp hf with rfl | ⟨w, hw, hwithin⟩
  · exact hv fields rfl
  · exact h w hw fields hwithin

theorem Ordered.of_leaf {v : Value} (h : v.children = []) (hv : ∀ fields, v ≠ .record fields) :
    v.Ordered := by
  refine .of_children (fun w hw => ?_) fun fields hf => absurd hf (hv fields)
  rw [h] at hw
  cases hw

structure ShortNumbers (v : Value) : Prop where
  nat : ∀ n, v.Within (.nat n) → (Varint.ofNat n).length ≤ Varint.maxGroups
  int : ∀ i, v.Within (.int i) → (Varint.ofInt i).length ≤ Varint.maxGroups

theorem ShortNumbers.child {v w : Value} (h : v.ShortNumbers) (hw : w ∈ v.children) :
    w.ShortNumbers :=
  ⟨fun n hn => h.nat n (.of_child hw hn), fun i hi => h.int i (.of_child hw hi)⟩

theorem ShortNumbers.of_children {v : Value} (h : ∀ w ∈ v.children, w.ShortNumbers)
    (hnat : ∀ n, v = .nat n → (Varint.ofNat n).length ≤ Varint.maxGroups)
    (hint : ∀ i, v = .int i → (Varint.ofInt i).length ≤ Varint.maxGroups) : v.ShortNumbers := by
  constructor
  · intro n hn
    rcases within_iff.mp hn with rfl | ⟨w, hw, hwithin⟩
    · exact hnat n rfl
    · exact (h w hw).nat n hwithin
  · intro i hi
    rcases within_iff.mp hi with rfl | ⟨w, hw, hwithin⟩
    · exact hint i rfl
    · exact (h w hw).int i hwithin

theorem ShortNumbers.of_leaf {v : Value} (h : v.children = []) (hnat : ∀ n, v ≠ .nat n)
    (hint : ∀ i, v ≠ .int i) : v.ShortNumbers := by
  refine .of_children (fun w hw => ?_) (fun n hn => absurd hn (hnat n)) fun i hi => absurd hi (hint i)
  rw [h] at hw
  cases hw

def toByte : Value → UInt8
  | nat8 n => n
  | _ => 0

end Didl.Value

namespace Didl.Table

def isByte (t : Table) (type : Ty) : Bool :=
  match t.follow type with
  | .ok head => head.isPrim .nat8
  | .error _ => false

end Didl.Table

namespace Didl.Value

/-- A value as it is given back when it is read as a type: nothing is left of what is written as
`reserved`, and the elements of a `vec nat8` are held as bytes. -/
def normal (t : Table) (v : Value) (type : Ty) : Value :=
  match t.follow type, v with
  | .ok (.prim .reserved), _ => .reserved
  | .ok (.composite (.opt inner)), .opt (some w) => .opt (some (normal t w inner))
  | .ok (.composite (.vec inner)), .vec items =>
    if t.isByte inner then .blob (items.map toByte)
    else .vec (items.attach.map fun w => normal t w.1 inner)
  | .ok (.composite (.record fields)), .record values =>
    .record (values.attach.map fun p =>
      (p.1.1, (findField? fields p.1.1).elim p.1.2 fun f => normal t p.1.2 f.type))
  | .ok (.composite (.variant fields)), .variant id w =>
    .variant id ((findField? fields id).elim w fun f => normal t w f.type)
  | _, v => v
termination_by sizeOf v
decreasing_by
  · exact sizeOf_lt_of_mem (v := .opt (some w)) (List.mem_singleton_self w)
  · exact sizeOf_lt_of_mem (v := .vec items) w.2
  · exact sizeOf_lt_of_mem (v := .record values) (List.mem_map_of_mem p.2)
  · exact sizeOf_lt_of_mem (v := .variant id w) (List.mem_singleton_self w)

/-- How many elements a value as a type has in those `vec`s whose elements take no bytes. -/
def zeroItems (t : Table) (v : Value) (type : Ty) : Nat :=
  match t.follow type, v with
  | .ok (.composite (.opt inner)), .opt (some w) => zeroItems t w inner
  | .ok (.composite (.vec inner)), .vec items =>
    (if t.isZeroSized (maxDepth + 1) inner then items.length else 0) +
      (items.attach.map fun w => zeroItems t w.1 inner).sum
  | .ok (.composite (.record fields)), .record values =>
    (values.attach.map fun p =>
      (findField? fields p.1.1).elim 0 fun f => zeroItems t p.1.2 f.type).sum
  | .ok (.composite (.variant fields)), .variant id w =>
    (findField? fields id).elim 0 fun f => zeroItems t w f.type
  | _, _ => 0
termination_by sizeOf v
decreasing_by
  · exact sizeOf_lt_of_mem (v := .opt (some w)) (List.mem_singleton_self w)
  · exact sizeOf_lt_of_mem (v := .vec items) w.2
  · exact sizeOf_lt_of_mem (v := .record values) (List.mem_map_of_mem p.2)
  · exact sizeOf_lt_of_mem (v := .variant id w) (List.mem_singleton_self w)

/-- The value stands as it is at the type: the type has no types for what is held in it. -/
def Stops : Head → Value → Prop
  | .prim .reserved, _ => False
  | .composite (.opt _), .opt (some _) => False
  | .composite (.vec _), .vec _ => False
  | .composite (.record _), .record _ => False
  | .composite (.variant _), .variant .. => False
  | _, _ => True

section Cases
variable {t : Table} {type inner : Ty} {fields : List (Field Ty)} {head : Head} {v : Value}

theorem normal_stops (h : t.follow type = .ok head) (hv : Stops head v) : normal t v type = v := by
  rw [normal.eq_def, h]
  split
  case h_6 => rfl
  all_goals
    rename_i heq
    cases heq
    exact hv.elim

theorem zeroItems_stops (h : t.follow type = .ok head) (hv : Stops head v) :
    zeroItems t v type = 0 := by
  rw [zeroItems.eq_def, h]
  split
  case h_5 => rfl
  all_goals
    rename_i heq
    cases heq
    exact hv.elim

theorem normal_reserved (h : t.follow type = .ok (.prim .reserved)) (v : Value) :
    normal t v type = .reserved := by
  rw [normal.eq_def, h]

theorem zeroItems_reserved (h : t.follow type = .ok (.prim .reserved)) (v : Value) :
    zeroItems t v type = 0 := by
  rw [zeroItems.eq_def, h]

theorem normal_some (h : t.follow type = .ok (.composite (.opt inner))) (w : Value) :
    normal t (.opt (some w)) type = .opt (some (normal t w inner)) := by
  rw [normal.eq_def, h]

theorem zeroItems_some (h : t.follow type = .ok (.composite (.opt inner))) (w : Value) :
    zeroItems t (.opt (some w)) type = zeroItems t w inner := by
  rw [zeroItems.eq_def, h]

theorem normal_alternative (h : t.follow type = .ok (.composite (.variant fields))) (id : UInt32)
    (w : Value) : normal t (.variant id w) type =
      .variant id ((findField? fields id).elim w fun f => normal t w f.type) := by
  rw [normal.eq_def, h]

theorem zeroItems_alternative (h : t.follow type = .ok (.composite (.variant fields))) (id : UInt32)
    (w : Value) : zeroItems t (.variant id w) type =
      (findField? fields id).elim 0 fun f => zeroItems t w f.type := by
  rw [zeroItems.eq_def, h]

theorem normal_variant (h : t.follow type = .ok (.composite (.variant fields))) {id : UInt32}
    {f : Field Ty} (hf : findField? fields id = some f) (w : Value) :
    normal t (.variant id w) type = .variant id (normal t w f.type) := by
  rw [normal_alternative h, hf, Option.elim_some]

theorem zeroItems_variant (h : t.follow type = .ok (.composite (.variant fields))) {id : UInt32}
    {f : Field Ty} (hf : findField? fields id = some f) (w : Value) :
    zeroItems t (.variant id w) type = zeroItems t w f.type := by
  rw [zeroItems_alternative h, hf, Option.elim_some]

theorem normal_vec (h : t.follow type = .ok (.composite (.vec inner))) (items : List Value) :
    normal t (.vec items) type =
      if t.isByte inner then .blob (items.map toByte) else .vec (items.map (normal t · inner)) := by
  rw [normal.eq_def, h]
  simp only
  rw [List.attach_map_val (f := (normal t · inner))]

theorem zeroItems_vec (h : t.follow type = .ok (.composite (.vec inner))) (items : List Value) :
    zeroItems t (.vec items) type =
      (if t.isZeroSized (maxDepth + 1) inner then items.length else 0) +
        (items.map (zeroItems t · inner)).sum := by
  rw [zeroItems.eq_def, h]
  simp only
  rw [List.attach_map_val (f := (zeroItems t · inner))]

theorem normal_fields (h : t.follow type = .ok (.composite (.record fields)))
    (values : List (UInt32 × Value)) :
    normal t (.record values) type = .record (values.map fun p =>
      (p.1, (findField? fields p.1).elim p.2 fun f => normal t p.2 f.type)) := by
  rw [normal.eq_def, h]
  simp only
  rw [List.attach_map_val (f := fun p : UInt32 × Value =>
    (p.1, (findField? fields p.1).elim p.2 fun f => normal t p.2 f.type))]

theorem zeroItems_fields (h : t.follow type = .ok (.composite (.record fields)))
    (values : List (UInt32 × Value)) :
    zeroItems t (.record values) type = ((values.map fun p =>
      (p.1, (findField? fields p.1).elim 0 fun f => zeroItems t p.2 f.type)).map Prod.snd).sum := by
  rw [zeroItems.eq_def, h, List.map_map]
  simp only
  rw [List.attach_map_val (f := fun p : UInt32 × Value =>
    (findField? fields p.1).elim 0 fun f => zeroItems t p.2 f.type)]
  rfl

theorem findField?_of_mem {f : Field Ty} (hids : (fields.map (·.id)).Nodup) (hf : f ∈ fields) :
    findField? fields f.id = some f := by
  cases hfind : findField? fields f.id with
  | none => simpa using List.find?_eq_none.mp hfind f hf
  | some g =>
    have hid : g.id = f.id := by simpa using List.find?_some hfind
    rw [List.inj_on_of_nodup_map hids (List.mem_of_find?_eq_some hfind) hf hid]

/-- Parts that are the fields of a record in order have their fields among those of the record. -/
theorem mem_of_parts {α : Type} {parts : List α} {field : α → Field Ty}
    (hfields : parts.map field = sortBy (·.id) fields) {p : α} (hp : p ∈ parts) :
    field p ∈ fields :=
  (sortBy_perm (·.id) fields).mem_iff.mp (hfields ▸ List.mem_map_of_mem hp)

theorem find_of_parts {α : Type} {parts : List α} {field : α → Field Ty}
    (hids : (fields.map (·.id)).Nodup) (hfields : parts.map field = sortBy (·.id) fields) :
    ∀ p ∈ parts, findField? fields (field p).id = some (field p) :=
  fun _ hp => findField?_of_mem hids (mem_of_parts hfields hp)

theorem parts_ascending {α β : Type} {parts : List α} {field : α → Field Ty}
    (hids : (fields.map (·.id)).Nodup) (hfields : parts.map field = sortBy (·.id) fields)
    (g : α → β) : (parts.map fun p => ((field p).id, g p)).Pairwise fun p q => p.1 < q.1 := by
  have hasc := sortBy_ascending hids
  rw [← hfields, List.pairwise_map] at hasc
  exact List.pairwise_map.mpr hasc

end Cases

/-- What is computed from a value along its type: for what stands as it is, for what is left out,
and for each kind of value from what is computed for the values in it. -/
structure TypedFold (β : Type) where
  stop : Value → β
  reserved : β
  present : β → β
  mark : Table → Ty → Bool
  items : Bool → List Value → List β → β
  undeclared : Value → β
  fields : List (UInt32 × β) → β
  alternative : UInt32 → β → β

structure IsTypedFold {β : Type} (g : Table → Value → Ty → β) (parts : TypedFold β) : Prop where
  stop {t : Table} {type : Ty} {head : Head} {v : Value} :
    t.follow type = .ok head → Stops head v → g t v type = parts.stop v
  reserved {t : Table} {type : Ty} : t.follow type = .ok (.prim .reserved) →
    ∀ v, g t v type = parts.reserved
  present {t : Table} {type inner : Ty} : t.follow type = .ok (.composite (.opt inner)) →
    ∀ w, g t (.opt (some w)) type = parts.present (g t w inner)
  items {t : Table} {type inner : Ty} : t.follow type = .ok (.composite (.vec inner)) →
    ∀ items, g t (.vec items) type = parts.items (parts.mark t inner) items (items.map (g t · inner))
  fields {t : Table} {type : Ty} {fields : List (Field Ty)} :
    t.follow type = .ok (.composite (.record fields)) → ∀ values,
    g t (.record values) type = parts.fields (values.map fun p =>
      (p.1, (findField? fields p.1).elim (parts.undeclared p.2) fun f => g t p.2 f.type))
  alternative {t : Table} {type : Ty} {fields : List (Field Ty)} :
    t.follow type = .ok (.composite (.variant fields)) → ∀ id w,
    g t (.variant id w) type = parts.alternative id
      ((findField? fields id).elim (parts.undeclared w) fun f => g t w f.type)

theorem isTypedFold_normal : IsTypedFold normal
    { stop := id
      reserved := .reserved
      present := fun v => .opt (some v)
      mark := Table.isByte
      items := fun bytes items vs => if bytes then .blob (items.map toByte) else .vec vs
      undeclared := id
      fields := .record
      alternative := .variant } where
  stop := normal_stops
  reserved := normal_reserved
  present := normal_some
  items := normal_vec
  fields := normal_fields
  alternative := normal_alternative

theorem isTypedFold_zeroItems : IsTypedFold zeroItems
    { stop := fun _ => 0
      reserved := 0
      present := id
      mark := fun t type => t.isZeroSized (maxDepth + 1) type
      items := fun zeroSized items ns => (if zeroSized then items.length else 0) + ns.sum
      undeclared := fun _ => 0
      fields := fun ns => (ns.map Prod.snd).sum
      alternative := fun _ n => n } where
  stop := zeroItems_stops
  reserved := zeroItems_reserved
  present := zeroItems_some
  items := zeroItems_vec
  fields := zeroItems_fields
  alternative := zeroItems_alternative

/-- From a record that has a value for each field the result is computed field by field. -/
theorem IsTypedFold.record {α β : Type} {g : Table → Value → Ty → β} {fold : TypedFold β}
    (hg : IsTypedFold g fold) {t : Table} {type : Ty} {fields : List (Field Ty)}
    (h : t.follow type = .ok (.composite (.record fields))) {parts : List α} {field : α → Field Ty}
    {value : α → Value} (hfields : ∀ p ∈ parts, findField? fields (field p).id = some (field p)) :
    g t (.record (parts.map fun p => ((field p).id, value p))) type =
      fold.fields (parts.map fun p => ((field p).id, g t (value p) (field p).type)) := by
  rw [hg.fields h, List.map_map]
  refine congrArg fold.fields (List.map_congr_left fun p hp => ?_)
  rw [Function.comp_apply, hfields p hp, Option.elim_some]

section Records
variable {α : Type} {t : Table} {type : Ty} {fields : List (Field Ty)} {parts : List α}
  {field : α → Field Ty} {value : α → Value}

theorem normal_record (h : t.follow type = .ok (.composite (.record fields)))
    (hfields : ∀ p ∈ parts, findField? fields (field p).id = some (field p)) :
    normal t (.record (parts.map fun p => ((field p).id, value p))) type =
      .record (parts.map fun p => ((field p).id, normal t (value p) (field p).type)) :=
  isTypedFold_normal.record h hfields

theorem zeroItems_record (h : t.follow type = .ok (.composite (.record fields)))
    (hfields : ∀ p ∈ parts, findField? fields (field p).id = some (field p)) :
    zeroItems t (.record (parts.map fun p => ((field p).id, value p))) type =
      (parts.map fun p => zeroItems t (value p) (field p).type).sum :=
  (isTypedFold_zeroItems.record h hfields).trans (congrArg List.sum List.map_map)

end Records

section Alike
variable {left right : Table} {R : Ty → Ty → Prop} {a b : Ty}

theorem isByte_alike (hR : IsBisimulation left.canonicalFormer right.canonicalFormer R)
    (h : R a b) : left.isByte a = right.isByte b := by
  obtain ⟨x, y, hx, hy, hxy⟩ := Table.follow_of_bisimulation hR h
  simp only [Table.isByte, hx, hy]
  cases hxy <;> rfl

theorem isZeroSized_alike (hR : IsBisimulation left.canonicalFormer right.canonicalFormer R)
    (h : R a b) (limit : Nat) : left.isZeroSized limit a = right.isZeroSized limit b := by
  obtain ⟨v, hv, hv'⟩ := Table.zeroSized_alike hR h limit
  rw [Table.isZeroSized_eq hv, Table.isZeroSized_eq hv']

theorem findField?_eq (fields : List (Field Ty)) (id : UInt32) :
    findField? fields id = (sortBy (·.id) fields).find? (·.id.toNat == id.toNat) := by
  rw [find?_sortBy_tag, findField?]
  congr 1
  funext f
  exact Bool.eq_iff_iff.mpr (by simp [UInt32.toNat_inj])

/-- The alternative that is found for a tag is found under its own number. -/
theorem findField?_of_tag {fields : List (Field Ty)} {f : Field Ty} {tag : Nat}
    (h : fields.find? (·.id.toNat == tag) = some f) :
    f.id.toNat = tag ∧ f ∈ fields ∧ findField? fields f.id = some f := by
  have hid : f.id.toNat = tag := by simpa using List.find?_some h
  exact ⟨hid, List.mem_of_find?_eq_some h, by rw [findField?_eq, find?_sortBy_tag, hid, h]⟩

theorem findField?_alike {fs gs : List (Field Ty)}
    (h : List.Forall₂ (Field.Rel R) (sortBy (·.id) fs) (sortBy (·.id) gs)) (id : UInt32) :
    (findField? fs id = none ∧ findField? gs id = none) ∨
      ∃ f g, findField? fs id = some f ∧ findField? gs id = some g ∧ R f.type g.type := by
  rw [findField?_eq, findField?_eq]
  rcases find?_alike h id.toNat with hnone | ⟨f, g, hf, hg, hr⟩
  · exact .inl hnone
  · exact .inr ⟨f, g, hf, hg, hr.2⟩

/-- A value as two types that look through to related formers: what it holds has related types there,
or neither has types for that. -/
inductive Meets (R : Ty → Ty → Prop) : Value → Head → Head → Prop
  | opt {a b : Ty} (w : Value) : R a b →
    Meets R (.opt (some w)) (.composite (.opt a)) (.composite (.opt b))
  | vec {a b : Ty} (items : List Value) : R a b →
    Meets R (.vec items) (.composite (.vec a)) (.composite (.vec b))
  | record {fs gs : List (Field Ty)} (values : List (UInt32 × Value)) :
    List.Forall₂ (Field.Rel R) (sortBy (·.id) fs) (sortBy (·.id) gs) →
    Meets R (.record values) (.composite (.record fs)) (.composite (.record gs))
  | variant {fs gs : List (Field Ty)} (id : UInt32) (w : Value) :
    List.Forall₂ (Field.Rel R) (sortBy (·.id) fs) (sortBy (·.id) gs) →
    Meets R (.variant id w) (.composite (.variant fs)) (.composite (.variant gs))
  | reserved (v : Value) : Meets R v (.prim .reserved) (.prim .reserved)
  | stops {v : Value} {x y : Head} : Stops x v → Stops y v → Meets R v x y

theorem meets (hR : IsBisimulation left.canonicalFormer right.canonicalFormer R) (h : R a b)
    (v : Value) : ∃ x y, left.follow a = .ok x ∧ right.follow b = .ok y ∧ Meets R v x y := by
  obtain ⟨x, y, hx, hy, hxy⟩ := Table.follow_of_bisimulation hR h
  refine ⟨x, y, hx, hy, ?_⟩
  cases hxy with
  | prim p => cases p <;> first | exact .reserved v | exact .stops trivial trivial
  | func | service | future => exact .stops trivial trivial
  | opt hr =>
    cases v
    case opt w =>
      cases w with
      | none => exact .stops trivial trivial
      | some w => exact .opt w hr
    all_goals exact .stops trivial trivial
  | vec hr =>
    cases v
    case vec items => exact .vec items hr
    all_goals exact .stops trivial trivial
  | record hfg =>
    cases v
    case record values => exact .record values hfg
    all_goals exact .stops trivial trivial
  | variant hfg =>
    cases v
    case variant id w => exact .variant id w hfg
    all_goals exact .stops trivial trivial

theorem elim_alike {β : Type} {fs gs : List (Field Ty)}
    (h : List.Forall₂ (Field.Rel R) (sortBy (·.id) fs) (sortBy (·.id) gs)) (id : UInt32) (d : β)
    {k k' : Field Ty → β} (hk : ∀ f g : Field Ty, R f.type g.type → k f = k' g) :
    (findField? fs id).elim d k = (findField? gs id).elim d k' := by
  rcases findField?_alike h id with ⟨hf, hg⟩ | ⟨f, g, hf, hg, hr⟩
  · rw [hf, hg, Option.elim_none, Option.elim_none]
  · rw [hf, hg, Option.elim_some, Option.elim_some, hk f g hr]

/-- Along related types the same is computed, if what is asked of the types of elements is the same
for both. -/
theorem IsTypedFold.alike {β : Type} {g : Table → Value → Ty → β} {fold : TypedFold β}
    (hg : IsTypedFold g fold) (hR : IsBisimulation left.canonicalFormer right.canonicalFormer R)
    (hmark : ∀ {c d}, R c d → fold.mark left c = fold.mark right d) (h : R a b) (v : Value) :
    g left v a = g right v b := by
  induction v using induct generalizing a b with
  | step v ih =>
    obtain ⟨x, y, hx, hy, hmeets⟩ := meets hR h v
    cases hmeets with
    | opt w hr => rw [hg.present hx, hg.present hy, ih w (List.mem_singleton_self w) hr]
    | vec items hr =>
      have hitems : ∀ w ∈ items, g left w _ = g right w _ := fun w hw => ih w hw hr
      rw [hg.items hx, hg.items hy, hmark hr, List.map_congr_left hitems]
    | record values hfg =>
      rw [hg.fields hx, hg.fields hy]
      refine congrArg fold.fields (List.map_congr_left fun p hp => congrArg (Prod.mk p.1) ?_)
      exact elim_alike hfg p.1 _ fun f g hr => ih p.2 (List.mem_map_of_mem hp) hr
    | variant id w hfg =>
      rw [hg.alternative hx, hg.alternative hy]
      exact congrArg _ (elim_alike hfg id _ fun f g hr => ih w (List.mem_singleton_self w) hr)
    | reserved => rw [hg.reserved hx, hg.reserved hy]
    | stops hxv hyv => rw [hg.stop hx hxv, hg.stop hy hyv]

/-- What is read back as related types is the same value. -/
theorem normal_alike (hR : IsBisimulation left.canonicalFormer right.canonicalFormer R) (h : R a b)
    (v : Value) : normal left v a = normal right v b :=
  isTypedFold_normal.alike hR (isByte_alike hR) h v

theorem zeroItems_alike (hR : IsBisimulation left.canonicalFormer right.canonicalFormer R)
    (h : R a b) (v : Value) : zeroItems left v a = zeroItems right v b :=
  isTypedFold_zeroItems.alike hR (fun h => isZeroSized_alike hR h _) h v

end Alike

end Didl.Value
