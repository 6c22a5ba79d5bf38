import Didl.Value.Json
import Didl.Proofs.Fitting
import Didl.Proofs.Reencoding

namespace Didl.Value

section Equations
variable {t : Table} {type inner : Ty} {head : Head} {fields : List (Field Ty)}

theorem json_plain {v : Value} {j : Json} (hhead : t.follow type = .ok head)
    (hplain : plainJson? v = some j) : v.json t type = .ok j := by
  cases v <;> cases hplain <;> rw [json, hhead] <;> first | rfl | nofun

theorem json_none (hhead : t.follow type = .ok (.composite (.opt inner))) :
    (opt none).json t type = .ok (.array []) := by
  rw [json, hhead]
  rfl

theorem json_some (hhead : t.follow type = .ok (.composite (.opt inner))) (w : Value) :
    (opt (some w)).json t type = (w.json t inner).map fun j => .array [j] := by
  rw [json, hhead]
  rfl

theorem json_vec (hhead : t.follow type = .ok (.composite (.vec inner))) (items : List Value) :
    (vec items).json t type = jsonItems t inner [] items := by
  rw [json, hhead]
  rfl

theorem json_record (hhead : t.follow type = .ok (.composite (.record fields)))
    (values : List (UInt32 × Value)) :
    (record values).json t type = (jsonMembers (renderers t values) fields).map .object := by
  rw [json, hhead]
  rfl

theorem json_variant (hhead : t.follow type = .ok (.composite (.variant fields))) {id : UInt32}
    {f : Field Ty} (hf : findField? fields id = some f) (w : Value) :
    (variant id w).json t type = (w.json t f.type).map fun j => .object [(f.key, j)] := by
  rw [json, hhead]
  simp only [bind, Except.bind, hf]
  rfl

theorem exists_plainJson {p : Prim} {v : Value} (h : p.Holds v) : ∃ j, plainJson? v = some j := by
  cases h <;> exact ⟨_, rfl⟩

end Equations

section Fits
variable {t : Table} {type inner : Ty} {fields : List (Field Ty)}

/-- An array has an item for each element, in their order. -/
theorem jsonItems_ok {vs : List Value} {js : List Json}
    (h : List.Forall₂ (fun v j => v.json t inner = .ok j) vs js) (done : List Json) :
    jsonItems t inner done vs = .ok (.array (done.reverse ++ js)) := by
  induction h generalizing done with
  | nil => simp [jsonItems]
  | cons hj _ ih =>
    rw [jsonItems, hj]
    simpa using ih (_ :: done)

theorem lookup_renderers (values : List (UInt32 × Value)) (id : UInt32) :
    (renderers t values).lookup id = (values.lookup id).map (json t) := by
  induction values with
  | nil => rfl
  | cons p values ih =>
    obtain ⟨id', w⟩ := p
    rw [renderers, List.lookup_cons, List.lookup_cons, ih]
    cases id == id' <;> rfl

def ShowsField (t : Table) (values : List (UInt32 × Value)) (f : Field Ty) (m : String × Json) :
    Prop :=
  f.key = m.1 ∧ ∃ w, values.lookup f.id = some w ∧ w.json t f.type = .ok m.2

/-- An object has a member for each field of a record, in the order of its type. -/
theorem jsonMembers_ok {values : List (UInt32 × Value)} {members : List (String × Json)}
    (h : List.Forall₂ (ShowsField t values) fields members) :
    jsonMembers (renderers t values) fields = .ok members := by
  induction h with
  | nil => rfl
  | cons hm _ ih =>
    obtain ⟨hkey, w, hw, hj⟩ := hm
    rw [jsonMembers, lookup_renderers, hw, ih, hkey]
    simp only [Option.map_some, hj]
    rfl

theorem exists_lookup_of_keys {values : List (UInt32 × Value)}
    (hkeys : values.map Prod.fst = (sortBy (·.id) fields).map (·.id)) {f : Field Ty}
    (hf : f ∈ fields) :
    ∃ w, values.lookup f.id = some w ∧ (f.id, w) ∈ values := by
  have hmem : f.id ∈ values.map Prod.fst := by
    rw [hkeys]
    exact List.mem_map_of_mem ((sortBy_perm (·.id) fields).mem_iff.mpr hf)
  cases hlookup : values.lookup f.id with
  | none =>
    obtain ⟨p, hp, hid⟩ := List.mem_map.mp hmem
    have hnone := List.lookup_eq_none_iff.mp hlookup p hp
    simp [hid] at hnone
  | some w =>
    obtain ⟨before, after, rfl, _⟩ := List.lookup_eq_some_iff.mp hlookup
    exact ⟨w, rfl, by simp⟩

theorem exists_members {values : List (UInt32 × Value)}
    (hkeys : values.map Prod.fst = (sortBy (·.id) fields).map (·.id))
    (h : ∀ p ∈ values, ∀ f ∈ fields, f.id = p.1 → ∃ j, p.2.json t f.type = .ok j) :
    ∃ members, List.Forall₂ (ShowsField t values) fields members := by
  refine exists_forall₂ fun f hf => ?_
  obtain ⟨w, hw, hmem⟩ := exists_lookup_of_keys hkeys hf
  obtain ⟨j, hj⟩ := h _ hmem f hf rfl
  exact ⟨(f.key, j), rfl, w, hw, hj⟩

/-- A value in the form that its type prescribes is never refused. -/
theorem json_of_fits {v : Value} (h : Fits t v type) : ∃ j, v.json t type = .ok j := by
  induction h with
  | prim hhead hp =>
    obtain ⟨j, hj⟩ := exists_plainJson hp
    exact ⟨j, json_plain hhead hj⟩
  | none hhead => exact ⟨_, json_none hhead⟩
  | some hhead _ ih =>
    obtain ⟨j, hj⟩ := ih
    exact ⟨.array [j], by rw [json_some hhead, hj]; rfl⟩
  | blob bytes hhead _ => exact ⟨_, json_plain hhead rfl⟩
  | vec hhead _ _ ih =>
    obtain ⟨js, hjs⟩ := exists_forall₂ ih
    exact ⟨_, by rw [json_vec hhead, jsonItems_ok hjs []]⟩
  | record hhead hkeys _ ih =>
    obtain ⟨members, hmembers⟩ := exists_members hkeys ih
    exact ⟨.object members, by rw [json_record hhead, jsonMembers_ok hmembers]; rfl⟩
  | variant hhead hf _ ih =>
    obtain ⟨j, hj⟩ := ih
    exact ⟨_, by rw [json_variant hhead hf, hj]; rfl⟩
  | func | service | future => exact ⟨_, json_plain ‹_› rfl⟩

end Fits

end Didl.Value

namespace Didl.Message
open Value

/-- Arguments that were read are in the form of their types. -/
theorem fits_of_readAll {t : Table} {types : List Ty} {args : List (Ty × Value)}
    (htypes : ∀ type ∈ types, t.UniqueIds type) {allowance left : Nat} {bytes rest : List UInt8}
    (h : readAll t types allowance bytes = (.ok (args, left), rest)) :
    ∀ p ∈ args, Fits t p.2 p.1 := by
  induction types generalizing args allowance bytes with
  | nil =>
    cases h
    exact nofun
  | cons type types ih =>
    obtain ⟨⟨v, _⟩, _, hv, h⟩ := Step.bind_eq_ok.mp h
    obtain ⟨⟨rest, _⟩, _, hrest, h⟩ := Step.bind_eq_ok.mp h
    cases h
    refine List.forall_mem_cons.mpr ⟨fits_of_read (htypes type List.mem_cons_self) _ hv, ?_⟩
    exact ih (fun type h => htypes type (List.mem_cons_of_mem _ h)) hrest

theorem fits_of_decode {bytes : List UInt8} {t : Table} {args : List (Ty × Value)}
    (h : decodeWithTable bytes = .ok (t, args)) : ∀ p ∈ args, Fits t p.2 p.1 := by
  obtain ⟨types, payload, left, hprelude, hread⟩ := decodeWithTable_eq_ok h
  have htypes := (Table.readPrelude_types hprelude).2
  exact fits_of_readAll (fun type htype => (htypes type htype).2.1.uniqueIds) hread

/-- What is admitted for the expected types is in the form of these types: a value was read as a
type that agrees with the expected one, and what is forgotten is in the form of `reserved`. -/
theorem fits_of_expectAll {env t : Table} {args : List (Ty × Value)} {expected : List Ty}
    {values : List Value} (hargs : ∀ p ∈ args, Fits t p.2 p.1)
    (h : expectAll env t (args.zip expected) = some (.ok values)) :
    ∀ p ∈ expected.zip values, Fits env p.2 p.1 := by
  induction args generalizing expected values with
  | nil =>
    cases h
    simp
  | cons arg args ih =>
    cases expected with
    | nil => simp
    | cons e expected =>
      obtain ⟨hv, hargs⟩ := List.forall_mem_cons.mp hargs
      obtain ⟨head, vs, hhead, hvs, ⟨hreserved, rfl⟩ | ⟨_, heq, rfl⟩⟩ := expectAll_eq_ok h
      · refine List.forall_mem_cons.mpr ⟨?_, ih hargs hvs⟩
        cases head with
        | prim p =>
          obtain rfl : p = .reserved := by simpa [Head.isPrim] using hreserved
          exact .prim hhead .reserved
        | composite c => cases hreserved
      · obtain ⟨R, hR, hr⟩ := Table.exists_bisimulation_of_equivalent heq
        exact List.forall_mem_cons.mpr ⟨hv.alike hR.canonical.flip hr, ih hargs hvs⟩

theorem toJson_of_fits {t : Table} {args : List (Ty × Value)} (h : ∀ p ∈ args, Fits t p.2 p.1) :
    ∃ j, toJson t args = .ok j := by
  have harg : ∀ p ∈ args, ∃ j, (do
      let j ← p.2.json t p.1
      pure (Json.object [("type", .string p.1.text), ("value", j)]) : Except Fault Json) = .ok j := by
    intro p hp
    obtain ⟨j, hj⟩ := json_of_fits (h p hp)
    exact ⟨_, except_bind_ok hj rfl⟩
  obtain ⟨items, hitems⟩ := exists_forall₂ harg
  exact ⟨.array items, except_bind_ok (except_mapM_eq_ok.mpr hitems) rfl⟩

theorem decodeToJson_of_decode {bytes : List UInt8} {args : List (Ty × Value)}
    (h : decode bytes = .ok args) : ∃ text, decodeToJson bytes = .ok text := by
  obtain ⟨t, ht⟩ := decodeWithTable_of_decode h
  obtain ⟨j, hj⟩ := toJson_of_fits (fits_of_decode ht)
  exact ⟨j.pretty, except_bind_ok ht (except_bind_ok hj rfl)⟩

theorem decodeToJson_of_error {bytes : List UInt8} {e : Fault} (h : decode bytes = .error e) :
    decodeToJson bytes = .error e := by
  unfold decode at h
  unfold decodeToJson
  cases hdecode : decodeWithTable bytes with
  | error e' =>
    rw [hdecode] at h
    cases h
    rfl
  | ok message =>
    rw [hdecode] at h
    cases h

theorem decodeToJsonAs_of_decodeAs {env : Table} {expected : List Ty} {bytes : List UInt8}
    {values : List Value} (h : decodeAs env expected bytes = some (.ok values)) :
    ∃ text, decodeToJsonAs env expected bytes = some (.ok text) := by
  obtain ⟨t, args, hdecode, _, hexpect⟩ := decodeAs_eq_ok h
  obtain ⟨j, hj⟩ := toJson_of_fits (fits_of_expectAll (fits_of_decode hdecode) hexpect)
  refine ⟨j.pretty, ?_⟩
  rw [decodeToJsonAs, h, Option.map_some]
  exact congrArg some (except_bind_ok rfl (except_bind_ok hj rfl))

/-- Whatever a message holds can be shown: there is a JSON text exactly where the message can be
read, with its own types or with expected ones, and what prevents one prevents the other. -/
theorem renders_iff_decodes (bytes : List UInt8) :
    ((∃ text, decodeToJson bytes = .ok text) ↔ ∃ args, decode bytes = .ok args) ∧
    (∀ e, decodeToJson bytes = .error e ↔ decode bytes = .error e) ∧
    ∀ (env : Table) (expected : List Ty),
      ((∃ text, decodeToJsonAs env expected bytes = some (.ok text)) ↔
        ∃ values, decodeAs env expected bytes = some (.ok values)) ∧
      ∀ e, decodeToJsonAs env expected bytes = some (.error e) ↔
        decodeAs env expected bytes = some (.error e) := by
  have hown : (∃ args text, decode bytes = .ok args ∧ decodeToJson bytes = .ok text) ∨
      ∃ e, decode bytes = .error e ∧ decodeToJson bytes = .error e := by
    cases h : decode bytes with
    | ok args =>
      obtain ⟨text, htext⟩ := decodeToJson_of_decode h
      exact .inl ⟨args, text, rfl, htext⟩
    | error e => exact .inr ⟨e, rfl, decodeToJson_of_error h⟩
  refine ⟨?_, ?_, fun env expected => ?_⟩
  · rcases hown with ⟨args, text, h, h'⟩ | ⟨e, h, h'⟩ <;> simp [h, h']
  · rcases hown with ⟨args, text, h, h'⟩ | ⟨e, h, h'⟩ <;> simp [h, h']
  · cases h : decodeAs env expected bytes with
    | none => simp [decodeToJsonAs, h]
    | some outcome =>
      cases outcome with
      | ok values =>
        obtain ⟨text, htext⟩ := decodeToJsonAs_of_decodeAs h
        simp [htext]
      | error e => simp [decodeToJsonAs, h, bind, Except.bind]

end Didl.Message
