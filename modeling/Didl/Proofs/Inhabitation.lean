import Didl.Proofs.Grounding
import Didl.Proofs.Measuring
import Didl.Proofs.Sufficiency

namespace Didl

def Prim.value : Prim → Value
  | null => .null
  | bool => .bool false
  | nat => .nat 0
  | int => .int 0
  | nat8 => .nat8 0
  | nat16 => .nat16 0
  | nat32 => .nat32 0
  | nat64 => .nat64 0
  | int8 => .int8 0
  | int16 => .int16 0
  | int32 => .int32 0
  | int64 => .int64 0
  | float32 => .float32 0
  | float64 => .float64 0
  | text => .text ""
  | principal => .principal none
  | reserved | empty => .reserved

theorem Prim.ordered_value (p : Prim) : p.value.Ordered := by
  cases p <;> exact .of_leaf rfl nofun

namespace Table
variable {t : Table} {type : Ty}

def HasValue (t : Table) (type : Ty) : Prop :=
  ∃ v : Value, v.Ordered ∧ ∃ bytes, Value.Encodes t v type bytes

theorem hasValue_prim {p : Prim} (hhead : t.follow type = .ok (.prim p)) (hp : p ≠ .empty) :
    t.HasValue type := by
  refine ⟨p.value, p.ordered_value, ?_⟩
  by_cases hreserved : p = .reserved
  · subst hreserved
    exact ⟨[], .reserved hhead⟩
  · obtain ⟨bytes, hbytes⟩ : ∃ bytes, p.bytes? p.value = some bytes := by
      cases p <;> first | exact ⟨_, rfl⟩ | contradiction
    exact ⟨bytes, .prim hhead hbytes⟩

theorem hasValue_record {fields : List (Field Ty)}
    (hhead : t.follow type = .ok (.composite (.record fields))) (hids : (fields.map (·.id)).Nodup)
    (h : ∀ f ∈ fields, t.HasValue f.type) : t.HasValue type := by
  have hvalue : ∀ f : Field Ty, ∃ p : Value × List UInt8,
      f ∈ fields → p.1.Ordered ∧ Value.Encodes t p.1 f.type p.2 := by
    intro f
    by_cases hf : f ∈ fields
    · obtain ⟨v, hv, bytes, hbytes⟩ := h f hf
      exact ⟨(v, bytes), fun _ => ⟨hv, hbytes⟩⟩
    · exact ⟨default, fun hf' => absurd hf' hf⟩
  choose part hpart using hvalue
  have hsorted {f : Field Ty} : f ∈ sortBy (·.id) fields ↔ f ∈ fields :=
    (sortBy_perm _ _).mem_iff
  let parts := (sortBy (·.id) fields).map fun f => (f, part f)
  have hparts : ∀ p ∈ parts, p.2.1.Ordered ∧ Value.Encodes t p.2.1 p.1.type p.2.2 :=
    List.forall_mem_map.mpr fun f hf => hpart f (hsorted.mp hf)
  have hfields : parts.map Prod.fst = sortBy (·.id) fields := by
    rw [List.map_map]
    exact List.map_id _
  refine ⟨.record (parts.map fun p => (p.1.id, p.2.1)), ?_, _,
    .record hhead hids hfields fun p hp => (hparts p hp).2⟩
  refine .of_children (fun w hw => ?_) fun values heq => ?_
  · obtain ⟨q, hq, rfl⟩ := List.mem_map.mp hw
    obtain ⟨p, hp, rfl⟩ := List.mem_map.mp hq
    exact (hparts p hp).1
  · cases heq
    exact Value.parts_ascending hids hfields _

/-- A type has a value if those members have one that a value of what it shows takes. -/
theorem hasValue_of_admits {g : Former Ty} (hg : t.former type = some g) (htidy : g.shape.Tidy)
    (h : g.Admits t.HasValue) : t.HasValue type := by
  obtain ⟨head, hhead, rfl⟩ := former_eq_some.mp hg
  have hleaf {v : Value} {bytes : List UInt8} (he : Value.Encodes t v type bytes)
      (hv : v.children = []) (hrecord : ∀ fields, v ≠ .record fields) : t.HasValue type :=
    ⟨v, .of_leaf hv hrecord, bytes, he⟩
  cases head with
  | prim p => exact hasValue_prim hhead h
  | composite c =>
    cases c with
    | opt inner => exact hleaf (.none hhead) rfl nofun
    | vec inner => exact hleaf (@Value.Encodes.vec t type inner [] hhead nofun) rfl nofun
    | record fields => exact hasValue_record hhead htidy h
    | variant fields =>
      obtain ⟨f, hf, v, hv, bytes, hbytes⟩ := h
      refine ⟨.variant f.id v, .of_children ?_ nofun, _,
        .variant hhead (Value.findField?_of_mem htidy hf) hbytes⟩
      exact fun w hw => List.mem_singleton.mp hw ▸ hv
    | func => exact hleaf (.func none hhead) rfl nofun
    | service => exact hleaf (.service none hhead) rfl nofun
    | future => exact hleaf (.future [] hhead) rfl nofun

end Table

namespace Value
variable {t : Table} {v : Value} {type : Ty} {bytes : List UInt8}

/-- What is written as a type hangs on what the type looks through to. -/
theorem encode_congr {a b : Ty} (h : t.follow a = t.follow b) (v : Value) :
    v.encode t a = v.encode t b := by
  have hwrite : write t v a = write t v b := by
    cases v with
    | opt inner => cases inner <;> simp only [write, dispatch, h]
    | _ => simp only [write, dispatch, h]
  have hsize : addSize t v a = addSize t v b := by
    cases v with
    | opt inner => cases inner <;> simp only [addSize, dispatch, h]
    | _ => simp only [addSize, dispatch, h]
  rw [encode, encode, size, size, hwrite, hsize]

theorem encodes_of_encode (ht : t.UniqueIds type) (hv : v.Ordered)
    (h : v.encode t type = .ok bytes) : Encodes t v type bytes := by
  obtain ⟨_, _, h⟩ := except_bind_eq_ok.mp h
  split at h
  · rename_i out hwrite
    cases h
    obtain ⟨bytes, hbytes, hout⟩ := encodes_of_write ht hv hwrite
    rw [hout]
    exact hbytes
  · cases h

end Value

end Didl

namespace Didl.Idl
open Table Relation

namespace Scope
variable {scope : Scope} {e : TypeExpr} {type : Ty}

/-- No label comes twice in what an expression shows. -/
theorem Shows.tidy {f : Former TypeExpr} (h : scope.Shows e f) : f.shape.Tidy := by
  have hids {sorted : List (Field TypeExpr)} (hasc : sorted.Pairwise fun x y => x.id < y.id) :
      (sorted.map (·.id)).Nodup := List.pairwise_map.mpr (hasc.imp fun hlt => UInt32.ne_of_lt hlt)
  induction h with
  | name _ _ ih => exact ih
  | record _ _ hasc => exact hids hasc
  | variant _ _ hasc => exact hids hasc
  | service _ hasc =>
    exact List.pairwise_map.mpr (hasc.imp fun hlt => ne_of_lt hlt)
  | primitive | blob | opt | vec | func => exact trivial

section Compiled
variable {P : Ty → Prop} {definitions : List (String × Ty)} {t : Table}
  (haccepted : scope.Accepted) (htyped : scope.Typed definitions)
  (hcompiled : Compiled P definitions t) (hbound : ∀ p ∈ definitions, t.isBound p.1 = true)
include haccepted htyped hcompiled hbound

theorem uniqueIds_of_standsAs (h : scope.StandsAs e type) : t.UniqueIds type := by
  have hreach : ∀ u, t.Reach type u → ∃ e, scope.StandsAs e u := by
    intro u hu
    refine hu.invariant (P := fun u => ∃ e, scope.StandsAs e u) ?_ ⟨e, h⟩
    rintro u g ⟨e, he⟩ hg m hm
    obtain ⟨f, g', _, hg', hrel⟩ := shows_of_standsAs haccepted htyped hcompiled hbound he
    cases hg.symm.trans hg'
    obtain ⟨e', _, he'⟩ := exists_of_mem_right (Former.rel_iff.mp hrel).2 hm
    exact ⟨e', he'⟩
  have htidy : ∀ u g, t.Reach type u → t.former u = some g → g.shape.Tidy := by
    intro u g hu hg
    obtain ⟨e, he⟩ := hreach u hu
    obtain ⟨f, g', hshows, hg', hrel⟩ := shows_of_standsAs haccepted htyped hcompiled hbound he
    cases hg.symm.trans hg'
    rw [← (Former.rel_iff.mp hrel).1]
    exact hshows.tidy
  rintro u fields hu (hg | hg)
  · exact htidy u _ hu hg
  · exact htidy u _ hu hg

/-- A value is built from the levels up. -/
theorem hasValue_of_founded {n : Nat} (h : scope.Founded n e) (hstands : scope.StandsAs e type) :
    t.HasValue type := by
  induction n generalizing e type with
  | zero => exact h.elim
  | succ n ih =>
    obtain ⟨f, hf, hadmits⟩ := h
    obtain ⟨f', g, hshows, hg, hrel⟩ :=
      shows_of_standsAs haccepted htyped hcompiled hbound hstands
    cases hf.unique hshows
    refine hasValue_of_admits hg ?_ ((hadmits.rel hrel).imp ?_)
    · rw [← (Former.rel_iff.mp hrel).1]
      exact hshows.tidy
    · rintro u ⟨e, hstands, hfounded⟩
      exact ih hfounded hstands

theorem founded_of_head {head : Head} (hhead : t.follow type = .ok head)
    (h : head.former.Admits fun u => ∀ e, scope.StandsAs e u → ∃ n, scope.Founded n e)
    (hstands : scope.StandsAs e type) : ∃ n, scope.Founded n e := by
  obtain ⟨f, g, hshows, hg, hrel⟩ := shows_of_standsAs haccepted htyped hcompiled hbound hstands
  cases hg.symm.trans (former_eq_some.mpr ⟨head, hhead, rfl⟩)
  refine founded_of_admits hshows ((h.rel hrel.flip).imp ?_)
  rintro e ⟨u, hstands, hfounded⟩
  exact hfounded e hstands

/-- What was written has its levels. -/
theorem founded_of_encodes {v : Value} {bytes : List UInt8} (h : Value.Encodes t v type bytes)
    (hstands : scope.StandsAs e type) : ∃ n, scope.Founded n e := by
  have hfounded {e : TypeExpr} {type : Ty} {head : Head} (hhead : t.follow type = .ok head) :=
    founded_of_head (e := e) haccepted htyped hcompiled hbound hhead
  induction h generalizing e with
  | reserved hhead => exact hfounded hhead (by simp [Head.former, Former.Admits]) hstands
  | @prim v type p bytes hhead hbytes =>
    refine hfounded hhead (fun heq => ?_) hstands
    subst heq
    cases hbytes
  | record hhead _ hfields _ ih =>
    refine hfounded hhead (fun f hf e he => ?_) hstands
    rw [← (sortBy_perm (·.id) _).mem_iff, ← hfields] at hf
    obtain ⟨p, hp, rfl⟩ := List.mem_map.mp hf
    exact ih p hp he
  | variant hhead hf _ ih =>
    exact hfounded hhead ⟨_, List.mem_of_find?_eq_some hf, fun _ he => ih he⟩ hstands
  | none hhead | some hhead | blob hhead | vec hhead | func _ hhead | service _ hhead
  | future _ hhead => exact hfounded hhead trivial hstands

end Compiled

end Scope

namespace Program
variable {program : Program}

/-- Values can be written under the name of a definition exactly if it has levels. -/
theorem encode_iff_founded {i : Interface} (h : program.interface = .ok i) {d : Definition}
    (hd : d ∈ program.definitions) :
    (∃ v : Value, v.Ordered ∧ ∃ bytes, v.encode i.table (.named d.name) = .ok bytes) ↔
      ∃ n, Scope.Founded program.definitions n d.type := by
  obtain ⟨hcheck, _, htyped, _⟩ := interface_eq_ok.mp h
  obtain ⟨haccepted, _⟩ := check_eq_ok.mp hcheck
  obtain ⟨hcompiled, hbound⟩ :=
    interface_compiled (P := fun _ => True) h (fun _ _ => trivial) fun _ _ => trivial
  obtain ⟨⟨x, type⟩, hmem, rfl, htype⟩ := exists_of_mem_right htyped.flip hd
  obtain ⟨type', hsame, hfollow⟩ :=
    hcompiled.named htyped hbound (Scope.names_nodup haccepted.names) hmem
  have hstands : Scope.StandsAs program.definitions d.type type' :=
    ⟨type, ⟨haccepted.exprs d hd, htype⟩, hsame⟩
  have hencode (v : Value) : v.encode i.table (.named d.name) = v.encode i.table type' :=
    v.encode_congr hfollow
  constructor
  · rintro ⟨v, hv, bytes, he⟩
    have hids := Scope.uniqueIds_of_standsAs haccepted htyped hcompiled hbound hstands
    exact Scope.founded_of_encodes haccepted htyped hcompiled hbound
      (Value.encodes_of_encode hids hv (hencode v ▸ he)) hstands
  · rintro ⟨n, hn⟩
    obtain ⟨v, hv, bytes, hbytes⟩ :=
      Scope.hasValue_of_founded haccepted htyped hcompiled hbound hn hstands
    exact ⟨v, hv, bytes, (hencode v).trans (Value.encode_of_encodes hbytes)⟩

/-- An accepted program in the words of the language compiles. Where `empty` occurs nowhere and every
variant has alternatives, all its definitions have values exactly if alternatives can be picked so
that no circle of definitions passes one of them. -/
theorem encode_iff_unwinds (hcheck : program.check = .ok ())
    (hfillable : ∀ d ∈ program.definitions, d.type.Fillable) :
    (program.Grammatical → ∃ i, program.interface = .ok i) ∧
    ∀ i, program.interface = .ok i →
      ((∀ d ∈ program.definitions, ∃ v : Value, v.Ordered ∧
          ∃ bytes, v.encode i.table (.named d.name) = .ok bytes) ↔
        ∃ pick, Picks pick ∧ Scope.Unwinds program.definitions pick) := by
  refine ⟨fun hgrammatical => interface_of_check hgrammatical hcheck, fun i hi => ?_⟩
  obtain ⟨_, _, htyped, _⟩ := interface_eq_ok.mp hi
  obtain ⟨haccepted, _⟩ := check_eq_ok.mp hcheck
  have htypes : ∀ d ∈ program.definitions, ∃ type,
      Scope.typeOf program.definitions d.type = .ok type := by
    intro d hd
    obtain ⟨p, _, _, htype⟩ := exists_of_mem_right htyped.flip hd
    exact ⟨p.2, htype⟩
  rw [← Scope.founded_iff_picks haccepted htypes hfillable]
  exact forall₂_congr fun d hd => encode_iff_founded hi hd

def listProgram : Program :=
  let p : Position := ⟨1, 1⟩
  ⟨[], [⟨"List", p, .form (.variant [⟨some (.name "end"), some (.name "Unit" p), p⟩,
      ⟨some (.name "more"), some (.form (.record [⟨none, some (.primitive "nat"), p⟩,
        ⟨some (.name "List"), none, p⟩])), p⟩])⟩,
    ⟨"Unit", p, .form (.record [])⟩], none⟩

/-- The alternative that is picked leads from lists to the record, which leads nowhere. -/
theorem unwinds_list : Scope.Unwinds listProgram.definitions List.head? := by
  have hunit : ∀ y, ¬ Scope.Leads listProgram.definitions List.head? "Unit" y := by
    rintro y ⟨passed, e, he, hneeds⟩
    obtain rfl : TypeExpr.form (.record []) = e := Option.some.inj he
    cases hneeds with
    | record hlayout hf =>
      cases hlayout
      cases hf
  rintro x y ⟨e, he, hneeds⟩ hback
  obtain ⟨d, hd, rfl, rfl⟩ := (Scope.body?_eq_some (by decide)).mp he
  obtain rfl | rfl : d = listProgram.definitions[0] ∨ d = listProgram.definitions[1] := by
    simpa [listProgram] using hd
  · cases hneeds with
    | variant hlayout hf hneeds =>
      cases hlayout
      cases hf
      cases hneeds
      rcases ReflTransGen.cases_head hback with h | ⟨z, hz, _⟩
      · exact absurd h (by decide)
      · exact hunit z hz
  · exact hunit y ⟨true, _, he, hneeds⟩

/-- Lists have the value that ends at once. -/
theorem encode_iff_unwinds_list : ∃ i, listProgram.interface = .ok i ∧
    ∀ d ∈ listProgram.definitions, ∃ v : Value, v.Ordered ∧
      ∃ bytes, v.encode i.table (.named d.name) = .ok bytes := by
  have hok : listProgram.interface.isOk = true := by cbv
  have hfillable : ∀ d ∈ listProgram.definitions, d.type.Fillable := fun d hd =>
    ⟨by revert d; simp [listProgram, Form.members, Prim.keyword],
      by revert d; simp [listProgram, Form.members]⟩
  cases hi : listProgram.interface with
  | error e =>
    rw [hi] at hok
    cases hok
  | ok i =>
    refine ⟨i, rfl, ((encode_iff_unwinds (interface_eq_ok.mp hi).1 hfillable).2 i hi).mpr
      ⟨List.head?, ⟨List.mem_of_head?, fun h => ?_⟩, unwinds_list⟩⟩
    exact Option.isSome_iff_exists.mp (List.isSome_head?.mpr h)

def loopProgram : Program :=
  ⟨[], [⟨"V", ⟨1, 6⟩,
    .form (.variant [⟨some (.name "a"), some (.name "V" ⟨1, 23⟩), ⟨1, 20⟩⟩])⟩], none⟩

theorem check_loop : loopProgram.check = .ok () := by cbv

/-- Nothing that leads to the variant alone has levels. -/
theorem not_founded_loop (n : Nat) : ¬ Scope.Founded loopProgram.definitions n (.name "V" ⟨1, 23⟩) := by
  induction n with
  | zero => exact id
  | succ n ih =>
    intro h
    have hbody : Scope.body? loopProgram.definitions "V" = some loopProgram.definitions[0].type := rfl
    have hlayout : (Form.variant [⟨some (.name "a"), some (.name "V" ⟨1, 23⟩), ⟨1, 20⟩⟩]).layout =
        .ok (.variant [⟨97, some "a", .name "V" ⟨1, 23⟩⟩]) := by cbv
    obtain ⟨f, hf, hfounded⟩ := Scope.founded_variant hlayout ((Scope.founded_name hbody).mp h)
    cases List.mem_singleton.mp hf
    exact ih hfounded

/-- The variant is accepted though no value can be written as it: each would hold another one. -/
theorem encode_loop : ∃ i, Program.ofSource "type V = variant \x7b a: V \x7d;" = .ok loopProgram ∧
    loopProgram.check = .ok () ∧ loopProgram.interface = .ok i ∧
    (∀ d ∈ loopProgram.definitions, d.type.Fillable) ∧
    ∃ d ∈ loopProgram.definitions, ∀ v : Value, v.Ordered →
      ∀ bytes, v.encode i.table (.named d.name) ≠ .ok bytes := by
  have hsource : Program.ofSource "type V = variant \x7b a: V \x7d;" = .ok loopProgram := by cbv
  obtain ⟨tokens, _, hparsed⟩ := except_bind_eq_ok.mp hsource
  obtain ⟨i, hi⟩ := interface_of_check (ofTokens_grammatical hparsed) check_loop
  refine ⟨i, hsource, check_loop, hi, List.forall_mem_singleton.mpr ⟨?_, ?_⟩, _,
    List.mem_cons_self, fun v hv bytes he => ?_⟩
  · simp [Form.members, Prim.keyword]
  · simp [Form.members]
  · obtain ⟨n, hn⟩ := (encode_iff_founded hi List.mem_cons_self).mp ⟨v, hv, bytes, he⟩
    exact not_founded_loop n ((Scope.founded_name rfl).mpr hn)

end Program

end Didl.Idl
