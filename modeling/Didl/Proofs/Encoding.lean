import Mathlib
import Didl.Proofs.EntryFormat
import Didl.Proofs.Values

namespace Didl

/-- Two finite maps with ascending keys are one if the first one holds nothing but what the second
one holds, and binds every key of it. -/
theorem Assoc.eq_of_ascending {κ α : Type} [LT κ] [Std.Asymm (α := κ) (· < ·)] {as bs : Assoc κ α}
    (ha : as.Pairwise fun p q => p.1 < q.1) (hb : bs.Pairwise fun p q => p.1 < q.1)
    (hsub : ∀ p ∈ as, p ∈ bs) (hkeys : ∀ p ∈ bs, ∃ a, (p.1, a) ∈ as) : as = bs := by
  have hasymm : ∀ p q : κ × α, p.1 < q.1 → ¬ q.1 < p.1 := fun p q => Std.Asymm.asymm p.1 q.1
  have : Std.Irrefl fun p q : κ × α => p.1 < q.1 := ⟨fun p h => hasymm p p h h⟩
  have : Std.Antisymm fun p q : κ × α => p.1 < q.1 := ⟨fun p q h h' => absurd h' (hasymm p q h)⟩
  have hkey : (bs.map Prod.fst).Nodup := List.pairwise_map.mpr (hb.imp fun {p q} h he => by
    rw [he] at h
    exact Std.Asymm.asymm _ _ h h)
  apply List.Subset.antisymm_of_pairwise ha hb (fun p hp => hsub p hp)
  intro p hp
  obtain ⟨a, hmem⟩ := hkeys p hp
  have heq : (p.1, a) = p := List.inj_on_of_nodup_map hkey (hsub _ hmem) hp rfl
  rwa [heq] at hmem

namespace Table

/-- What a reader asks of types: no number of a field and no name of a method comes twice, a method
is a function for all that is known, and an opcode of no meaning is none that has one. -/
structure Legible (t : Table) (type : Ty) : Prop where
  labels : ∀ u f, t.Reach type u → t.former u = some f → f.shape.Tidy
  methods : ∀ u ms, t.Reach type u → t.former u = some (.composite (.service ms)) →
    ∀ m ∈ ms, ∃ f, t.former m.type = some f ∧ f.shape.Callable

/-- What types have to satisfy to be read back: no number of a field and no name of a method comes
twice, methods are functions, and an opcode of no meaning is none that has one. -/
structure Tidy (t : Table) (type : Ty) : Prop where
  labels : ∀ u f, t.Reach type u → t.former u = some f → f.shape.Tidy
  methods : ∀ u ms, t.Reach type u → t.former u = some (.composite (.service ms)) →
    ∀ m ∈ ms, ∃ args results modes, t.former m.type = some (.composite (.func args results modes))

/-- In no record and no variant that a type leads to does the number of a field come twice. -/
def UniqueIds (t : Table) (type : Ty) : Prop :=
  ∀ u fields, t.Reach type u → t.former u = some (.composite (.record fields)) ∨
    t.former u = some (.composite (.variant fields)) → (fields.map (·.id)).Nodup

theorem UniqueIds.member {t : Table} {type m : Ty} {f : Former Ty} (h : t.UniqueIds type)
    (hf : t.former type = some f) (hm : m ∈ f.members) : t.UniqueIds m :=
  fun u fields hu hfields => h u fields (.trans (.member .refl hf hm) hu) hfields

theorem Tidy.legible {t : Table} {type : Ty} (h : t.Tidy type) : t.Legible type := by
  refine ⟨h.labels, fun u ms hu hf m hm => ?_⟩
  obtain ⟨args, results, modes, hfunc⟩ := h.methods u ms hu hf m hm
  exact ⟨_, hfunc, trivial⟩

theorem Legible.uniqueIds {t : Table} {type : Ty} (h : t.Legible type) : t.UniqueIds type := by
  rintro u fields hu (hf | hf)
  · exact h.labels u _ hu hf
  · exact h.labels u _ hu hf

/-- A set of types that no step leaves holds well-formed types alone, if each of them shows
well-formed labels and no service. -/
theorem Tidy.of_invariant {t : Table} {P : Ty → Prop}
    (hstep : ∀ u f, P u → t.former u = some f → f.shape.Tidy ∧ ∀ v ∈ f.members, P v)
    (hservice : ∀ u ms, P u → t.former u ≠ some (.composite (.service ms))) {type : Ty}
    (h : P type) : t.Tidy type := by
  have hreach : ∀ u, t.Reach type u → P u :=
    fun u hu => hu.invariant (fun u f hP hf => (hstep u f hP hf).2) h
  exact ⟨fun u f hu hf => (hstep u f (hreach u hu) hf).1,
    fun u ms hu hf => absurd hf (hservice u ms (hreach u hu))⟩

/-- A type of well-formed members is well-formed if it shows well-formed labels and no service. -/
theorem Tidy.of_former {t : Table} {type : Ty} {f : Former Ty} (hf : t.former type = some f)
    (hshape : f.shape.Tidy) (hservice : ∀ ms, f ≠ .composite (.service ms))
    (hmembers : ∀ m ∈ f.members, t.Tidy m) : t.Tidy type := by
  have hsplit : ∀ u, t.Reach type u → u = type ∨ ∃ m ∈ f.members, t.Reach m u := by
    intro u hu
    induction hu with
    | refl => exact .inl rfl
    | member _ hg hv ih =>
      rcases ih with rfl | ⟨m, hm, hreach⟩
      · rw [hf] at hg
        cases hg
        exact .inr ⟨_, hv, .refl⟩
      · exact .inr ⟨m, hm, .member hreach hg hv⟩
  refine ⟨fun u g hu hg => ?_, fun u ms hu hg => ?_⟩
  · rcases hsplit u hu with rfl | ⟨m, hm, hreach⟩
    · rw [hf] at hg
      cases hg
      exact hshape
    · exact (hmembers m hm).labels u g hreach hg
  · rcases hsplit u hu with rfl | ⟨m, hm, hreach⟩
    · rw [hf] at hg
      exact absurd (Option.some.inj hg) (hservice ms)
    · exact (hmembers m hm).methods u ms hreach hg

end Table

namespace Value

section Dispatch
variable {σ : Type} {t : Table} {type : Ty} {v : Value} {prim : Prim → Option (Step σ Unit)}
  {composite : Composite Ty → Step σ Unit}

theorem dispatch_reserved (h : t.follow type = .ok (.prim .reserved)) (s : σ) :
    dispatch t type v prim composite s = (.ok (), s) := by
  rw [dispatch, h]
  rfl

theorem dispatch_prim {p : Prim} {step : Step σ Unit} (h : t.follow type = .ok (.prim p))
    (hp : prim p = some step) (hreserved : p ≠ .reserved) (hempty : p ≠ .empty) :
    dispatch t type v prim composite = step := by
  rw [dispatch, h, Step.ofExcept_ok_bind]
  cases p <;> simp_all

theorem dispatch_composite {c : Composite Ty} (h : t.follow type = .ok (.composite c)) :
    dispatch t type v prim composite = composite c := by
  rw [dispatch, h, Step.ofExcept_ok_bind]

theorem dispatch_eq_ok {s s' : σ} (h : dispatch t type v prim composite s = (.ok (), s')) :
    (t.follow type = .ok (.prim .reserved) ∧ s' = s) ∨
      (∃ p step, t.follow type = .ok (.prim p) ∧ prim p = some step ∧ step s = (.ok (), s')) ∨
      ∃ c, t.follow type = .ok (.composite c) ∧ composite c s = (.ok (), s') := by
  unfold dispatch at h
  obtain ⟨head, s₁, hstep, h⟩ := Step.bind_eq_ok.mp h
  obtain ⟨hhead, rfl⟩ := Step.ofExcept_eq_ok.mp hstep
  cases head with
  | composite c => exact .inr (.inr ⟨c, hhead, h⟩)
  | prim p =>
    cases hp : prim p with
    | none =>
      cases p <;> simp only [hp] at h <;> cases h
      exact .inl ⟨hhead, rfl⟩
    | some step =>
      cases p
      case reserved =>
        cases h
        exact .inl ⟨hhead, rfl⟩
      case empty => cases h
      all_goals
        simp only [hp] at h
        exact .inr (.inl ⟨_, step, hhead, hp, h⟩)

end Dispatch

theorem write_reserved {t : Table} {type : Ty} (h : t.follow type = .ok (.prim .reserved))
    (v : Value) (out : Array UInt8) : v.write t type out = (.ok (), out) := by
  cases v with
  | opt inner => cases inner <;> rw [write] <;> first | exact dispatch_reserved h out | simp
  | _ => rw [write] <;> first | exact dispatch_reserved h out | simp

theorem lookup_writers {t : Table} (values : List (UInt32 × Value)) (id : UInt32) :
    (writers t values).lookup id = (values.lookup id).map (write t) := by
  induction values with
  | nil => rfl
  | cons p values ih =>
    obtain ⟨id', w⟩ := p
    rw [writers, List.lookup_cons, List.lookup_cons, ih]
    cases id == id' <;> rfl

/-- Bytes that hold a value as a type. -/
inductive Encodes (t : Table) : Value → Ty → List UInt8 → Prop
  | reserved {v : Value} {type : Ty} :
      t.follow type = .ok (.prim .reserved) → Encodes t v type []
  | prim {v : Value} {type : Ty} {p : Prim} {bytes : List UInt8} :
      t.follow type = .ok (.prim p) → p.bytes? v = some bytes → Encodes t v type bytes
  | none {type inner : Ty} :
      t.follow type = .ok (.composite (.opt inner)) → Encodes t (.opt none) type [0]
  | some {w : Value} {type inner : Ty} {bytes : List UInt8} :
      t.follow type = .ok (.composite (.opt inner)) → Encodes t w inner bytes →
      Encodes t (.opt (some w)) type (1 :: bytes)
  | blob {bytes : List UInt8} {type inner : Ty} :
      t.follow type = .ok (.composite (.vec inner)) → t.isByte inner = true →
      Encodes t (.blob bytes) type (Writer.blob bytes)
  | vec {type inner : Ty} {items : List (Value × List UInt8)} :
      t.follow type = .ok (.composite (.vec inner)) →
      (∀ p ∈ items, Encodes t p.1 inner p.2) →
      Encodes t (.vec (items.map Prod.fst)) type
        (Varint.ofNat items.length ++ items.flatMap Prod.snd)
  | record {type : Ty} {fields : List (Field Ty)} {parts : List (Field Ty × Value × List UInt8)} :
      t.follow type = .ok (.composite (.record fields)) → (fields.map (·.id)).Nodup →
      parts.map Prod.fst = sortBy (·.id) fields →
      (∀ p ∈ parts, Encodes t p.2.1 p.1.type p.2.2) →
      Encodes t (.record (parts.map fun p => (p.1.id, p.2.1))) type (parts.flatMap (·.2.2))
  | variant {type : Ty} {fields : List (Field Ty)} {f : Field Ty} {id : UInt32} {w : Value}
      {bytes : List UInt8} :
      t.follow type = .ok (.composite (.variant fields)) → findField? fields id = some f →
      Encodes t w f.type bytes →
      Encodes t (.variant id w) type (Varint.ofNat id.toNat ++ bytes)
  | func {type : Ty} {args results : List Ty} {modes : List Mode} (ref : Option FuncRef) :
      t.follow type = .ok (.composite (.func args results modes)) →
      Encodes t (.func ref) type (funcBytes ref)
  | service {type : Ty} {methods : List (Method Ty)} (id : Option (List UInt8)) :
      t.follow type = .ok (.composite (.service methods)) →
      Encodes t (.service id) type (referenceBytes id)
  | future {type : Ty} {opcode : Int64} {payload : List UInt8} (bytes : List UInt8) :
      t.follow type = .ok (.composite (.future opcode payload)) →
      Encodes t (.future bytes) type (Writer.blob bytes)

section Write
variable {t : Table} {type : Ty} {v : Value} {out out' : Array UInt8}

theorem extra_of_recordFields {values : List (UInt32 × Value)} {fields sorted : List (Field Ty)}
    (h : recordFields fields values = .ok sorted) :
    sorted = sortBy (·.id) fields ∧ ∀ p ∈ values, ∃ f ∈ fields, f.id = p.1 := by
  unfold recordFields at h
  split at h
  · cases h
  · rename_i hnone
    cases h
    refine ⟨rfl, fun p hp => ?_⟩
    simpa using List.find?_eq_none.mp hnone p hp

def Written (t : Table) (type : Ty) (v : Value) : Prop :=
  ∀ ⦃out out'⦄, v.write t type out = (.ok (), out') →
    ∃ bytes, Encodes t v type bytes ∧ out'.toList = out.toList ++ bytes

namespace Written
variable {inner : Ty} {fields : List (Field Ty)}

/-- The values that fields are written from, field by field, each with its bytes. -/
theorem of_fields {values : List (UInt32 × Value)}
    (hw : ∀ f ∈ fields, ∀ w, (f.id, w) ∈ values → Written t f.type w)
    (h : eachField (writers t values) fields out = (.ok (), out')) :
    ∃ parts : List (Field Ty × Value × List UInt8), parts.map Prod.fst = fields ∧
      (∀ p ∈ parts, (p.1.id, p.2.1) ∈ values ∧ Encodes t p.2.1 p.1.type p.2.2) ∧
      out'.toList = out.toList ++ parts.flatMap (·.2.2) := by
  induction fields generalizing out with
  | nil =>
    cases h
    exact ⟨[], rfl, nofun, by simp⟩
  | cons f fields ih =>
    rw [eachField, lookup_writers] at h
    cases hlookup : values.lookup f.id with
    | none =>
      rw [hlookup] at h
      cases h
    | some w =>
      rw [hlookup] at h
      obtain ⟨⟨⟩, out₁, hfirst, h⟩ := Step.bind_eq_ok.mp h
      have hmem : (f.id, w) ∈ values := by
        obtain ⟨before, after, rfl, _⟩ := List.lookup_eq_some_iff.mp hlookup
        simp
      obtain ⟨bytes, hbytes, hout₁⟩ := hw f List.mem_cons_self w hmem hfirst
      obtain ⟨parts, rfl, hparts, hout'⟩ := ih (fun g hg => hw g (List.mem_cons_of_mem _ hg)) h
      refine ⟨(f, w, bytes) :: parts, rfl, ?_, ?_⟩
      · intro p hp
        rcases List.mem_cons.mp hp with rfl | hp
        · exact ⟨hmem, hbytes⟩
        · exact hparts p hp
      · rw [hout', hout₁, List.flatMap_cons, List.append_assoc]

theorem of_items {items : List Value} (hw : ∀ w ∈ items, Written t inner w)
    (h : writeItems t items inner out = (.ok (), out')) :
    ∃ parts : List (Value × List UInt8), parts.map Prod.fst = items ∧
      (∀ p ∈ parts, Encodes t p.1 inner p.2) ∧
      out'.toList = out.toList ++ parts.flatMap Prod.snd := by
  induction items generalizing out with
  | nil =>
    cases h
    exact ⟨[], rfl, nofun, by simp⟩
  | cons w items ih =>
    rw [writeItems] at h
    dsimp only at h
    split at h
    · rename_i out₁ hfirst
      obtain ⟨bytes, hbytes, hout₁⟩ := hw w List.mem_cons_self hfirst
      obtain ⟨parts, rfl, hparts, hout'⟩ := ih (fun u hu => hw u (List.mem_cons_of_mem _ hu)) h
      refine ⟨(w, bytes) :: parts, rfl, ?_, ?_⟩
      · intro p hp
        rcases List.mem_cons.mp hp with rfl | hp
        · exact hbytes
        · exact hparts p hp
      · rw [hout', hout₁, List.flatMap_cons, List.append_assoc]
    · cases h

/-- Writing goes by the value first; values that hold no others share one case. -/
theorem leaf (hopt : ∀ w, v ≠ .opt (some w)) (hvec : ∀ items, v ≠ .vec items)
    (hrecord : ∀ values, v ≠ .record values) (hvariant : ∀ id w, v ≠ .variant id w) :
    Written t type v := by
  intro out out' h
  rw [write] at h <;> try assumption
  rcases dispatch_eq_ok h with ⟨hhead, rfl⟩ | ⟨p, step, hhead, hp, h⟩ | ⟨c, hhead, h⟩
  · exact ⟨[], .reserved hhead, by simp⟩
  · obtain ⟨bytes, hbytes, rfl⟩ := Option.map_eq_some_iff.mp hp
    cases h
    exact ⟨bytes, .prim hhead hbytes, by simp⟩
  · split at h
    · cases h
      exact ⟨[0], .none hhead, by simp⟩
    · obtain ⟨head, out₁, hstep, h⟩ := Step.bind_eq_ok.mp h
      obtain ⟨hinner, rfl⟩ := Step.ofExcept_eq_ok.mp hstep
      split at h
      · rename_i hbyte
        cases h
        refine ⟨_, .blob hhead ?_, by simp⟩
        rw [Table.isByte, hinner]
        exact hbyte
      · cases h
    · cases h
      exact ⟨_, .func _ hhead, by simp⟩
    · cases h
      exact ⟨_, .service _ hhead, by simp⟩
    · cases h
      exact ⟨_, .future _ hhead, by simp⟩
    · cases h

/-- A value that holds others is written as a composite type, or nothing of it is written. -/
theorem of_composite {f : Composite Ty → Step (Array UInt8) Unit}
    (heq : v.write t type = dispatch t type v (fun _ => none) f)
    (hf : ∀ c out out', t.follow type = .ok (.composite c) → f c out = (.ok (), out') →
      ∃ bytes, Encodes t v type bytes ∧ out'.toList = out.toList ++ bytes) : Written t type v := by
  intro out out' h
  rw [heq] at h
  rcases dispatch_eq_ok h with ⟨hhead, rfl⟩ | ⟨_, _, _, hnone, _⟩ | ⟨c, hhead, h⟩
  · exact ⟨[], .reserved hhead, by simp⟩
  · cases hnone
  · exact hf c out out' hhead h

theorem opt {w : Value}
    (hw : ∀ inner, t.follow type = .ok (.composite (.opt inner)) → Written t inner w) :
    Written t type (.opt (some w)) := by
  refine of_composite (write.eq_1 t type w) fun c out out' hhead h => ?_
  split at h
  · obtain ⟨⟨⟩, out₁, hbyte, h⟩ := Step.bind_eq_ok.mp h
    cases hbyte
    obtain ⟨bytes, hbytes, hout⟩ := hw _ hhead h
    exact ⟨1 :: bytes, .some hhead hbytes, by simp [hout]⟩
  · cases h

theorem vec {items : List Value} (hw : ∀ inner, t.follow type = .ok (.composite (.vec inner)) →
    ∀ w ∈ items, Written t inner w) : Written t type (.vec items) := by
  refine of_composite (write.eq_2 t type items) fun c out out' hhead h => ?_
  split at h
  · obtain ⟨⟨⟩, out₁, hcount, h⟩ := Step.bind_eq_ok.mp h
    cases hcount
    obtain ⟨parts, rfl, hparts, hout⟩ := of_items (hw _ hhead) h
    exact ⟨_, .vec hhead hparts, by simp [hout]⟩
  · cases h

/-- A record whose fields are in order is that of the parts that were written. -/
theorem values_of_parts {values : List (UInt32 × Value)}
    {parts : List (Field Ty × Value × List UInt8)} (hids : (fields.map (·.id)).Nodup)
    (hfields : parts.map Prod.fst = sortBy (·.id) fields)
    (hasc : values.Pairwise fun p q => p.1 < q.1) (hparts : ∀ p ∈ parts, (p.1.id, p.2.1) ∈ values)
    (hdeclared : ∀ p ∈ values, ∃ f ∈ fields, f.id = p.1) :
    parts.map (fun p => (p.1.id, p.2.1)) = values := by
  refine Assoc.eq_of_ascending (parts_ascending hids hfields _) hasc ?_ ?_
  · intro p hp
    obtain ⟨part, hpart, rfl⟩ := List.mem_map.mp hp
    exact hparts part hpart
  · intro p hp
    obtain ⟨f, hf, hid⟩ := hdeclared p hp
    rw [← (sortBy_perm (·.id) fields).mem_iff, ← hfields] at hf
    obtain ⟨part, hpart, rfl⟩ := List.mem_map.mp hf
    exact ⟨part.2.1, List.mem_map.mpr ⟨part, hpart, by rw [hid]⟩⟩

theorem record {values : List (UInt32 × Value)} (hasc : values.Pairwise fun p q => p.1 < q.1)
    (hids : ∀ fields, t.follow type = .ok (.composite (.record fields)) →
      (fields.map (·.id)).Nodup)
    (hw : ∀ fields, t.follow type = .ok (.composite (.record fields)) →
      ∀ f ∈ fields, ∀ w, (f.id, w) ∈ values → Written t f.type w) :
    Written t type (.record values) := by
  refine of_composite (write.eq_3 t type values) fun c out out' hhead h => ?_
  split at h
  · rename_i fields
    obtain ⟨sorted, out₁, hstep, h⟩ := Step.bind_eq_ok.mp h
    obtain ⟨hsorted, rfl⟩ := Step.ofExcept_eq_ok.mp hstep
    obtain ⟨rfl, hdeclared⟩ := extra_of_recordFields hsorted
    obtain ⟨parts, hfields, hparts, hout⟩ := of_fields
      (fun f hf => hw fields hhead f ((sortBy_perm (·.id) fields).mem_iff.mp hf)) h
    rw [← values_of_parts (hids fields hhead) hfields hasc (fun p hp => (hparts p hp).1) hdeclared]
    exact ⟨_, .record hhead (hids fields hhead) hfields fun p hp => (hparts p hp).2, hout⟩
  · cases h

theorem variant {id : UInt32} {w : Value}
    (hw : ∀ fields, t.follow type = .ok (.composite (.variant fields)) →
      ∀ f ∈ fields, Written t f.type w) : Written t type (.variant id w) := by
  refine of_composite (write.eq_4 t type id w) fun c out out' hhead h => ?_
  split at h
  · rename_i fields
    cases hf : findField? fields id with
    | none =>
      simp only [hf] at h
      cases h
    | some f =>
      simp only [hf] at h
      obtain ⟨⟨⟩, out₁, htag, h⟩ := Step.bind_eq_ok.mp h
      cases htag
      obtain ⟨bytes, hbytes, hout⟩ := hw fields hhead f (List.mem_of_find?_eq_some hf) h
      exact ⟨_, .variant hhead hf hbytes, by simp [hout]⟩
  · cases h

end Written

/-- What a writer appends holds the value as the type. -/
theorem encodes_of_write (ht : t.UniqueIds type) (hv : v.Ordered) : Written t type v := by
  induction v using induct generalizing type with
  | step v ih =>
    have hmember : ∀ {c m w}, t.follow type = .ok (.composite c) → m ∈ c.members → w ∈ v.children →
        Written t m w := fun hhead hm hw =>
      ih _ hw (ht.member (Table.former_eq_some.mpr ⟨_, hhead, rfl⟩) hm) (hv.child hw)
    cases v
    case opt inner =>
      cases inner with
      | none => exact .leaf nofun nofun nofun nofun
      | some w =>
        exact .opt fun inner hhead =>
          hmember hhead (List.mem_singleton_self inner) (List.mem_singleton_self w)
    case vec items =>
      exact .vec fun inner hhead w hw => hmember hhead (List.mem_singleton_self inner) hw
    case record values =>
      refine .record (hv values .refl) (fun fields hhead => ?_) fun fields hhead f hf w hw => ?_
      · exact ht _ _ .refl (.inl (Table.former_eq_some.mpr ⟨_, hhead, rfl⟩))
      · exact hmember hhead (List.mem_map_of_mem hf) (List.mem_map_of_mem hw)
    case variant id w =>
      exact .variant fun fields hhead f hf =>
        hmember hhead (List.mem_map_of_mem hf) (List.mem_singleton_self w)
    all_goals exact .leaf nofun nofun nofun nofun

end Write

section Alike
variable {left right : Table} {R : Ty → Ty → Prop} {a b : Ty} {v : Value} {bytes : List UInt8}

/-- The parts of a record lie side by side with the fields of a related type. -/
theorem record_alike {fs gs : List (Field Ty)} {parts : List (Field Ty × Value × List UInt8)}
    (hy : right.follow b = .ok (.composite (.record gs))) (hids : (fs.map (·.id)).Nodup)
    (hfields : parts.map Prod.fst = sortBy (·.id) fs)
    (hfg : List.Forall₂ (Field.Rel R) (sortBy (·.id) fs) (sortBy (·.id) gs))
    (hparts : ∀ p ∈ parts, ∀ b, R p.1.type b → Encodes right p.2.1 b p.2.2) :
    Encodes right (.record (parts.map fun p => (p.1.id, p.2.1))) b (parts.flatMap (·.2.2)) := by
  rw [← hfields, List.forall₂_map_left_iff] at hfg
  have hrel : ∀ q ∈ parts.zip (sortBy (·.id) gs), q.1.1.id = q.2.id ∧ R q.1.1.type q.2.type :=
    fun q hq => List.forall₂_zip hfg hq
  have hzip : (parts.zip (sortBy (·.id) gs)).map Prod.fst = parts :=
    List.map_fst_zip (Nat.le_of_eq hfg.length_eq)
  have hsorted : (parts.zip (sortBy (·.id) gs)).map Prod.snd = sortBy (·.id) gs :=
    List.map_snd_zip (Nat.le_of_eq hfg.length_eq.symm)
  generalize parts.zip (sortBy (·.id) gs) = pairs at hrel hzip hsorted
  subst hzip
  have hids' : (gs.map (·.id)).Nodup := by
    have hperm := (sortBy_perm (·.id) fs).map (·.id)
    rw [← hfields, List.map_map, List.map_map] at hperm
    refine ((sortBy_perm (·.id) gs).map (·.id)).nodup_iff.mp ?_
    have hsame : pairs.map (·.2.id) = pairs.map (·.1.1.id) :=
      List.map_congr_left fun q hq => (hrel q hq).1.symm
    rw [← hsorted, List.map_map]
    exact hsame ▸ hperm.nodup_iff.mpr hids
  have hrecord := @Encodes.record right b gs (pairs.map fun q => (q.2, q.1.2)) hy hids'
    (by rw [← hsorted, List.map_map]; rfl) fun p hp => by
      obtain ⟨q, hq, rfl⟩ := List.mem_map.mp hp
      exact hparts q.1 (List.mem_map_of_mem hq) _ (hrel q hq).2
  have hvalues : pairs.map (fun q => (q.2.id, q.1.2.1)) = pairs.map (fun q => (q.1.1.id, q.1.2.1)) :=
    List.map_congr_left fun q hq => by rw [(hrel q hq).1]
  rw [List.map_map, List.flatMap_map] at hrecord ⊢
  exact hvalues ▸ hrecord

/-- Bytes hold the same values as related types. -/
theorem Encodes.alike (hR : IsBisimulation left.canonicalFormer right.canonicalFormer R)
    (he : Encodes left v a bytes) (h : R a b) : Encodes right v b bytes := by
  induction he generalizing b with
  | reserved hhead =>
    obtain ⟨y, hy, hxy⟩ := Table.follow_alike hR h hhead
    cases hxy
    exact .reserved hy
  | prim hhead hbytes =>
    obtain ⟨y, hy, hxy⟩ := Table.follow_alike hR h hhead
    cases hxy
    exact .prim hy hbytes
  | none hhead =>
    obtain ⟨y, hy, hxy⟩ := Table.follow_alike hR h hhead
    cases hxy
    exact .none hy
  | some hhead _ ih =>
    obtain ⟨y, hy, hxy⟩ := Table.follow_alike hR h hhead
    cases hxy with
    | opt hr => exact .some hy (ih hr)
  | blob hhead hbyte =>
    obtain ⟨y, hy, hxy⟩ := Table.follow_alike hR h hhead
    cases hxy with
    | vec hr => exact .blob hy (isByte_alike hR hr ▸ hbyte)
  | vec hhead _ ih =>
    obtain ⟨y, hy, hxy⟩ := Table.follow_alike hR h hhead
    cases hxy with
    | vec hr => exact .vec hy fun p hp => ih p hp hr
  | record hhead hids hfields _ ih =>
    obtain ⟨y, hy, hxy⟩ := Table.follow_alike hR h hhead
    cases hxy with
    | record hfg => exact record_alike hy hids hfields hfg fun p hp _ hr => ih p hp hr
  | variant hhead hf _ ih =>
    obtain ⟨y, hy, hxy⟩ := Table.follow_alike hR h hhead
    cases hxy with
    | variant hfg =>
      rcases findField?_alike hfg _ with ⟨hnone, _⟩ | ⟨f, g, hf', hg, hr⟩
      · rw [hf] at hnone
        cases hnone
      · rw [hf] at hf'
        cases hf'
        exact .variant hy hg (ih hr)
  | func ref hhead =>
    obtain ⟨y, hy, hxy⟩ := Table.follow_alike hR h hhead
    cases hxy
    exact .func ref hy
  | service id hhead =>
    obtain ⟨y, hy, hxy⟩ := Table.follow_alike hR h hhead
    cases hxy
    exact .service id hy
  | future bs hhead =>
    obtain ⟨y, hy, hxy⟩ := Table.follow_alike hR h hhead
    cases hxy
    exact .future bs hy

end Alike

end Value

end Didl
