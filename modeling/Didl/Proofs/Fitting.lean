import Didl.Proofs.Reading

namespace Didl

inductive Prim.Holds : Prim → Value → Prop
  | null : Holds .null .null
  | bool (b : Bool) : Holds .bool (.bool b)
  | nat (n : Nat) : Holds .nat (.nat n)
  | int (i : Int) : Holds .int (.int i)
  | nat8 (n : UInt8) : Holds .nat8 (.nat8 n)
  | nat16 (n : UInt16) : Holds .nat16 (.nat16 n)
  | nat32 (n : UInt32) : Holds .nat32 (.nat32 n)
  | nat64 (n : UInt64) : Holds .nat64 (.nat64 n)
  | int8 (i : Int8) : Holds .int8 (.int8 i)
  | int16 (i : Int16) : Holds .int16 (.int16 i)
  | int32 (i : Int32) : Holds .int32 (.int32 i)
  | int64 (i : Int64) : Holds .int64 (.int64 i)
  | float32 (bits : UInt32) : Holds .float32 (.float32 bits)
  | float64 (bits : UInt64) : Holds .float64 (.float64 bits)
  | text (s : String) : Holds .text (.text s)
  | reserved : Holds .reserved .reserved
  | principal (id : Option (List UInt8)) : Holds .principal (.principal id)

theorem Prim.holds_of_reader {p : Prim} {v : Value} {bytes rest : List UInt8}
    (h : p.reader bytes = (.ok v, rest)) : p.Holds v := by
  cases p with
  | null =>
    cases h
    exact .null
  | reserved =>
    cases h
    exact .reserved
  | empty => cases h
  | _ =>
    obtain ⟨a, bytes₁, _, h⟩ := Step.bind_eq_ok.mp h
    cases h
    constructor

namespace Value

/-- A value in the form in which a reader of a type holds it: bytes as a `blob`, and of a record the
fields of its type by ascending number. -/
inductive Fits (t : Table) : Value → Ty → Prop
  | prim {type : Ty} {p : Prim} {v : Value} :
      t.follow type = .ok (.prim p) → p.Holds v → Fits t v type
  | none {type inner : Ty} :
      t.follow type = .ok (.composite (.opt inner)) → Fits t (.opt none) type
  | some {type inner : Ty} {w : Value} :
      t.follow type = .ok (.composite (.opt inner)) → Fits t w inner → Fits t (.opt (some w)) type
  | blob {type inner : Ty} (bytes : List UInt8) :
      t.follow type = .ok (.composite (.vec inner)) → t.isByte inner = true →
      Fits t (.blob bytes) type
  | vec {type inner : Ty} {items : List Value} :
      t.follow type = .ok (.composite (.vec inner)) → t.isByte inner = false →
      (∀ w ∈ items, Fits t w inner) → Fits t (.vec items) type
  | record {type : Ty} {fields : List (Field Ty)} {values : List (UInt32 × Value)} :
      t.follow type = .ok (.composite (.record fields)) →
      values.map Prod.fst = (sortBy (·.id) fields).map (·.id) →
      (∀ p ∈ values, ∀ f ∈ fields, f.id = p.1 → Fits t p.2 f.type) → Fits t (.record values) type
  | variant {type : Ty} {fields : List (Field Ty)} {f : Field Ty} {id : UInt32} {w : Value} :
      t.follow type = .ok (.composite (.variant fields)) → findField? fields id = some f →
      Fits t w f.type → Fits t (.variant id w) type
  | func {type : Ty} {args results : List Ty} {modes : List Mode} (ref : Option FuncRef) :
      t.follow type = .ok (.composite (.func args results modes)) → Fits t (.func ref) type
  | service {type : Ty} {methods : List (Method Ty)} (id : Option (List UInt8)) :
      t.follow type = .ok (.composite (.service methods)) → Fits t (.service id) type
  | future {type : Ty} {opcode : Int64} {payload : List UInt8} (bytes : List UInt8) :
      t.follow type = .ok (.composite (.future opcode payload)) → Fits t (.future bytes) type

def FitsHead (t : Table) : Head → Value → Prop
  | .prim p, v => p.Holds v
  | .composite (.opt inner), v => v = .opt none ∨ ∃ w, v = .opt (some w) ∧ Fits t w inner
  | .composite (.vec inner), v =>
    if t.isByte inner then ∃ bytes, v = .blob bytes
    else ∃ items, v = .vec items ∧ ∀ w ∈ items, Fits t w inner
  | .composite (.record fields), v => ∃ values, v = .record values ∧
    values.map Prod.fst = (sortBy (·.id) fields).map (·.id) ∧
      ∀ p ∈ values, ∀ f ∈ fields, f.id = p.1 → Fits t p.2 f.type
  | .composite (.variant fields), v => ∃ f id w, v = .variant id w ∧
    findField? fields id = some f ∧ Fits t w f.type
  | .composite c, v => ∃ bytes, c.bytes? v = some bytes

section Read
variable {t : Table} {type : Ty}

theorem Fits.head {v : Value} {head : Head} (h : Fits t v type) (hhead : t.follow type = .ok head) :
    FitsHead t head v := by
  cases h <;> cases hhead.symm.trans ‹t.follow _ = _›
  case prim hp _ => exact hp
  case none => exact .inl rfl
  case some w hw _ => exact .inr ⟨w, rfl, hw⟩
  case blob bytes hbyte _ =>
    rw [FitsHead, if_pos hbyte]
    exact ⟨bytes, rfl⟩
  case vec items hbyte hitems _ =>
    rw [FitsHead, if_neg (by simp [hbyte])]
    exact ⟨items, rfl, hitems⟩
  case record values hkeys hvalues _ => exact ⟨values, rfl, hkeys, hvalues⟩
  case variant f id w hf hw _ => exact ⟨f, id, w, rfl, hf, hw⟩
  all_goals exact ⟨_, rfl⟩

/-- A record is held with its fields by ascending number. -/
theorem Fits.of_parts {fields : List (Field Ty)}
    (hhead : t.follow type = .ok (.composite (.record fields))) (hids : (fields.map (·.id)).Nodup)
    {parts : List (Field Ty × Value)} (hfields : parts.map Prod.fst = sortBy (·.id) fields)
    (h : ∀ p ∈ parts, Fits t p.2 p.1.type) :
    Fits t (.record (Assoc.ofList (parts.map fun p => (p.1.id, p.2)))) type := by
  rw [Assoc.ofList_of_ascending (parts_ascending hids hfields _)]
  refine .record hhead (by rw [← hfields, List.map_map, List.map_map]; rfl) ?_
  intro q hq f hf hid
  obtain ⟨p, hp, rfl⟩ := List.mem_map.mp hq
  obtain rfl := List.inj_on_of_nodup_map hids hf (mem_of_parts hfields hp) hid
  exact h p hp

theorem fits_flat {c : Composite Ty} {v : Value} {bytes : List UInt8}
    (hhead : t.follow type = .ok (.composite c)) (h : c.bytes? v = some bytes) : Fits t v type := by
  cases c <;> cases v <;> cases h
  · exact .func _ hhead
  · exact .service _ hhead
  · exact .future _ hhead

def ReadsForm (t : Table) (limit : Nat) (type : Ty) : Prop :=
  ∀ ⦃v allowance left bytes rest⦄, read t limit type allowance bytes = (.ok (v, left), rest) →
    Fits t v type

namespace ReadsForm
variable {inner : Ty} {fields : List (Field Ty)} {limit : Nat}

theorem fits_items (h : ReadsForm t limit inner) {count allowance left : Nat} {items : List Value}
    {bytes rest : List UInt8}
    (hitems : readItems (read t limit inner) count [] allowance bytes = (.ok (items, left), rest)) :
    ∀ w ∈ items, Fits t w inner := by
  obtain ⟨more, rfl, _, hmore, _⟩ := readItems_eq_ok (P := (Fits t · inner)) (g := fun _ => 0)
    (fun _ _ _ _ _ hv => ⟨h hv, by have := (spends_read t limit inner _ _ _ _ _ hv).1; omega⟩) hitems
  simpa using hmore

theorem fits_fields (h : ∀ f ∈ fields, ReadsForm t limit f.type) {vs : List (UInt32 × Value)}
    {allowance left : Nat} {bytes rest : List UInt8}
    (hvs : readFields (read t limit) fields allowance bytes = (.ok (vs, left), rest)) :
    ∃ parts : List (Field Ty × Value), parts.map Prod.fst = fields ∧
      vs = parts.map (fun p => (p.1.id, p.2)) ∧ ∀ p ∈ parts, Fits t p.2 p.1.type := by
  obtain ⟨parts, hfields, hvs, hparts, _⟩ := readFields_eq_ok
    (P := fun type v => Fits t v type) (g := fun _ _ => 0)
    (fun f hf _ _ _ _ _ hv =>
      ⟨h f hf hv, by have := (spends_read t limit f.type _ _ _ _ _ hv).1; omega⟩) hvs
  exact ⟨parts, hfields, hvs, hparts⟩

theorem prim {p : Prim} (hhead : t.follow type = .ok (.prim p)) : ReadsForm t (limit + 1) type :=
  fun _ _ _ _ _ h => .prim hhead (Prim.holds_of_reader (read_prim_eq_ok hhead h).1)

theorem flat {c : Composite Ty} (hhead : t.follow type = .ok (.composite c)) {x : Reader Value}
    (hx : c.reader? = some x) : ReadsForm t (limit + 1) type := by
  intro v allowance left bytes rest h
  obtain ⟨⟨bs, hbs⟩, _⟩ := flat_reader_eq_ok hx (read_flat_eq_ok hhead hx h).1
  exact fits_flat hhead hbs

theorem opt (hhead : t.follow type = .ok (.composite (.opt inner))) (h : ReadsForm t limit inner) :
    ReadsForm t (limit + 1) type := by
  intro v allowance left bytes rest hread
  obtain ⟨rfl, _⟩ | ⟨w, _, rfl, hw⟩ := read_opt_eq_ok hhead hread
  · exact .none hhead
  · exact .some hhead (h hw)

theorem vec (hhead : t.follow type = .ok (.composite (.vec inner))) (h : ReadsForm t limit inner) :
    ReadsForm t (limit + 1) type := by
  intro v allowance left bytes rest hread
  obtain ⟨hbyte, _, bs, rfl⟩ | ⟨hbyte, count, mid, items, _, _, rfl, _, hitems⟩ :=
    read_vec_eq_ok hhead hread
  · exact .blob bs hhead hbyte
  · exact .vec hhead hbyte (h.fits_items hitems)

theorem record (hhead : t.follow type = .ok (.composite (.record fields)))
    (hids : (fields.map (·.id)).Nodup) (h : ∀ f ∈ fields, ReadsForm t limit f.type) :
    ReadsForm t (limit + 1) type := by
  intro v allowance left bytes rest hread
  obtain ⟨vs, rfl, hvs⟩ := read_record_eq_ok hhead hread
  obtain ⟨parts, hfields, rfl, hparts⟩ := fits_fields
    (fun f hf => h f ((sortBy_perm (·.id) fields).mem_iff.mp hf)) hvs
  exact .of_parts hhead hids hfields hparts

theorem variant (hhead : t.follow type = .ok (.composite (.variant fields)))
    (h : ∀ f ∈ fields, ReadsForm t limit f.type) : ReadsForm t (limit + 1) type := by
  intro v allowance left bytes rest hread
  obtain ⟨f, w, _, hmem, hf, rfl, hw⟩ := read_variant_eq_ok hhead hread
  exact .variant hhead hf (h f hmem hw)

end ReadsForm

/-- What is read as a type has the form of its values, whatever the table says about names that
the bytes do not lead to. -/
theorem fits_of_read (hids : t.UniqueIds type) (limit : Nat) : ReadsForm t limit type := by
  refine read_induct hids (fun _ => nofun) (fun hhead v allowance left bytes rest h => ?_)
    ReadsForm.prim (fun hhead hx => ReadsForm.flat hhead hx) ReadsForm.opt ReadsForm.vec
    ReadsForm.record ReadsForm.variant limit
  rw [read_unbound hhead] at h
  cases h

end Read

section Alike
variable {left right : Table} {R : Ty → Ty → Prop} {a b : Ty} {v : Value}

/-- The values of related types have the same form. -/
theorem Fits.alike (hR : IsBisimulation left.canonicalFormer right.canonicalFormer R)
    (hv : Fits left v a) (h : R a b) : Fits right v b := by
  induction hv generalizing b with
  | prim hhead hp =>
    obtain ⟨y, hy, hxy⟩ := Table.follow_alike hR h hhead
    cases hxy
    exact .prim hy hp
  | none hhead =>
    obtain ⟨y, hy, hxy⟩ := Table.follow_alike hR h hhead
    cases hxy
    exact .none hy
  | some hhead _ ih =>
    obtain ⟨y, hy, hxy⟩ := Table.follow_alike hR h hhead
    cases hxy with
    | opt hr => exact .some hy (ih hr)
  | blob bytes hhead hbyte =>
    obtain ⟨y, hy, hxy⟩ := Table.follow_alike hR h hhead
    cases hxy with
    | vec hr => exact .blob bytes hy (isByte_alike hR hr ▸ hbyte)
  | vec hhead hbyte _ ih =>
    obtain ⟨y, hy, hxy⟩ := Table.follow_alike hR h hhead
    cases hxy with
    | vec hr => exact .vec hy (isByte_alike hR hr ▸ hbyte) fun w hw => ih w hw hr
  | @record type fs values hhead hkeys _ ih =>
    obtain ⟨y, hy, hxy⟩ := Table.follow_alike hR h hhead
    cases hxy with
    | @record _ gs hfg =>
      have hids : (sortBy (·.id) fs).map (·.id) = (sortBy (·.id) gs).map (·.id) :=
        List.forall₂_eq_eq_eq ▸ List.forall₂_map_left_iff.mpr
          (List.forall₂_map_right_iff.mpr (hfg.imp fun _ _ hr => hr.1))
      refine .record hy (hkeys.trans hids) fun p hp g hg hid => ?_
      obtain ⟨f, hf, hr⟩ := exists_of_mem_right hfg ((sortBy_perm (·.id) gs).mem_iff.mpr hg)
      exact ih p hp f ((sortBy_perm (·.id) fs).mem_iff.mp hf) (hr.1.trans hid) hr.2
  | variant hhead hf _ ih =>
    obtain ⟨y, hy, hxy⟩ := Table.follow_alike hR h hhead
    cases hxy with
    | variant hfg =>
      rcases findField?_alike hfg _ with ⟨hnone, _⟩ | ⟨f, g, hf', hg, hr⟩
      · rw [hf] at hnone
        cases hnone
      · rw [hf] at hf'
        cases hf'
        exact .variant hy hg (ih hr)
  | func ref hhead =>
    obtain ⟨y, hy, hxy⟩ := Table.follow_alike hR h hhead
    cases hxy
    exact .func ref hy
  | service id hhead =>
    obtain ⟨y, hy, hxy⟩ := Table.follow_alike hR h hhead
    cases hxy
    exact .service id hy
  | future bytes hhead =>
    obtain ⟨y, hy, hxy⟩ := Table.follow_alike hR h hhead
    cases hxy
    exact .future bytes hy

end Alike

end Value

end Didl
