import Didl.Proofs.Encoding
import Didl.Proofs.FieldNames
import Didl.Proofs.Writing

namespace Didl

def Step.Concur {σ α : Type} (x y : Step σ α) : Prop :=
  ∀ s, Didl.Concur Eq (x s).1 (y s).1 ∧ (x s).2 = (y s).2

namespace Step.Concur
variable {σ α β : Type}

theorem refl (x : Step σ α) : x.Concur x := fun _ => ⟨.refl _, rfl⟩

theorem fail {e e' : Fault} (h : e.kind = e'.kind) :
    (Step.fail e : Step σ α).Concur (Step.fail e') := fun _ => ⟨.error h, rfl⟩

/-- The same is yielded and the buffer left alike, or both are refused. -/
theorem run {x y : Step σ α} (h : x.Concur y) (s : σ) :
    (∃ a s₁, x s = (.ok a, s₁) ∧ y s = (.ok a, s₁)) ∨
      ∃ e e' s₁, x s = (.error e, s₁) ∧ y s = (.error e', s₁) ∧ e.kind = e'.kind := by
  obtain ⟨hresult, hstate⟩ := h s
  cases hx : x s with
  | mk r s₁ =>
  cases hy : y s with
  | mk r' s₁' =>
  rw [hx, hy] at hresult hstate
  obtain rfl : s₁ = s₁' := hstate
  cases hresult with
  | ok heq =>
    cases heq
    exact .inl ⟨_, _, rfl, rfl⟩
  | error he => exact .inr ⟨_, _, _, rfl, rfl, he⟩

theorem bind {x y : Step σ α} {f g : α → Step σ β} (h : x.Concur y) (k : ∀ a, (f a).Concur (g a)) :
    (x >>= f).Concur (y >>= g) := by
  intro s
  obtain ⟨a, s₁, hx, hy⟩ | ⟨e, e', s₁, hx, hy, he⟩ := h.run s
  · rw [Step.bind_ok hx, Step.bind_ok hy]
    exact k a s₁
  · rw [Step.bind_error hx, Step.bind_error hy]
    exact ⟨.error he, rfl⟩

/-- Going on from results that concur. -/
theorem ofExcept {γ δ : Type} {R : γ → δ → Prop} {x : Except Fault γ} {y : Except Fault δ}
    {f : γ → Step σ β} {g : δ → Step σ β} (h : Didl.Concur R x y)
    (k : ∀ c d, R c d → (f c).Concur (g d)) :
    (Step.ofExcept x >>= f).Concur (Step.ofExcept y >>= g) := by
  cases h with
  | ok hr => exact k _ _ hr
  | error he => exact .fail he

end Step.Concur

abbrev Ty.Same (a b : Ty) : Prop := a.same b = true

section Alike
variable {R : Ty → Ty → Prop}

theorem Head.isPrim_of_rel {x y : Head} (h : x.former.Rel R y.former) (p : Prim) :
    x.isPrim p = y.isPrim p := by
  cases x <;> cases y <;> cases h <;> rfl

/-- Related types look through to the same formers of related types, or are refused by both tables
with faults of one kind. -/
def Table.ShowAlike (R : Ty → Ty → Prop) (t u : Table) : Prop :=
  ∀ a b, R a b → Concur (fun x y => x.former.Rel R y.former) (t.follow a) (u.follow b)

theorem Table.ShowAlike.of_bisimulation {t u : Table} (h : IsBisimulation t.former u.former R) :
    ShowAlike R t u := by
  intro a b hab
  obtain ⟨f, g, hf, hg, hfg⟩ := h a b hab
  obtain ⟨x, hx, rfl⟩ := former_eq_some.mp hf
  obtain ⟨y, hy, rfl⟩ := former_eq_some.mp hg
  rw [hx, hy]
  exact .ok hfg

theorem Table.Resembles.showAlike {t u : Table} (h : t.Resembles u) : ShowAlike Ty.Same t u := by
  intro a b hab
  have hheads := h.follow hab
  generalize t.follow a = x at hheads
  generalize u.follow b = y at hheads
  cases hheads with
  | error he => exact .error he
  | @ok x y hxy =>
    refine .ok ?_
    cases x <;> cases y
    case prim.prim p q =>
      obtain rfl : p = q := by simpa [Head.type, Ty.same] using hxy
      exact .prim p
    case composite.composite c d => exact .composite (Ty.same_composite.mp hxy)
    all_goals simp [Head.type, Ty.same] at hxy

theorem recordFields_concur {α : Type} {fs gs : List (Field Ty)} (values : Assoc UInt32 α)
    (h : List.Forall₂ (Field.Rel R) fs gs) :
    Concur (List.Forall₂ (Field.Rel R)) (recordFields fs values) (recordFields gs values) := by
  have hany : ∀ id, fs.any (·.id == id) = gs.any (·.id == id) := by
    intro id
    have hids := (forall₂_fields.mp h).1
    simpa only [List.any_map, Function.comp_def] using congrArg (List.any · (· == id)) hids
  unfold recordFields
  simp only [hany]
  split
  · exact .error rfl
  · exact .ok (sortBy_forall₂ (fun _ _ hfg => hfg.1) h)

theorem findField?_rel {fs gs : List (Field Ty)} (id : UInt32)
    (h : List.Forall₂ (Field.Rel R) fs gs) :
    Option.Rel (fun f g => R f.type g.type) (findField? fs id) (findField? gs id) := by
  unfold findField?
  induction h with
  | nil => exact .none
  | @cons f g _ _ hfg _ ih =>
    rw [List.find?_cons, List.find?_cons, hfg.1]
    split
    · exact .some hfg.2
    · exact ih

end Alike

namespace Value
variable {t u : Table} {a b : Ty} {R : Ty → Ty → Prop}

theorem dispatch_concur {σ : Type} (h : Table.ShowAlike R t u) (hab : R a b) (v : Value)
    (prim : Prim → Option (Step σ Unit)) {f g : Composite Ty → Step σ Unit}
    (hfg : ∀ c d, c.Rel R d → (f c).Concur (g d)) :
    (dispatch t a v prim f).Concur (dispatch u b v prim g) := by
  refine .ofExcept (h a b hab) fun x y hxy => ?_
  cases x <;> cases y <;> cases hxy
  case prim.prim p => cases p <;> exact .refl _
  case composite.composite c d hcd => exact hfg c d hcd

theorem eachField_concur {σ : Type} {items items' : Assoc UInt32 (Ty → Step σ Unit)}
    {fs gs : List (Field Ty)} (h : List.Forall₂ (Field.Rel R) fs gs)
    (hitems : ∀ id, Option.Rel (fun step step' => ∀ a b, R a b → (step a).Concur (step' b))
      (items.lookup id) (items'.lookup id)) :
    (eachField items fs).Concur (eachField items' gs) := by
  induction h with
  | nil => exact .refl _
  | @cons f g _ _ hfg _ ih =>
    have hstep := hitems f.id
    rw [eachField, eachField, ← hfg.1]
    generalize items.lookup f.id = x at hstep
    generalize items'.lookup f.id = y at hstep
    cases hstep with
    | none => exact .refl _
    | some hstep => exact (hstep _ _ hfg.2).bind fun _ => ih

theorem mismatch_kind (x y : Head) (v : Value) : (mismatch x v).kind = (mismatch y v).kind := rfl

theorem unknownAlternative_kind (x y : Head) (id : UInt32) :
    (unknownAlternative x id).kind = (unknownAlternative y id).kind := rfl

theorem mem_of_lookup {values : List (UInt32 × Value)} {id : UInt32} {w : Value}
    (h : values.lookup id = some w) : w ∈ (record values).children := by
  obtain ⟨before, after, rfl, _⟩ := List.lookup_eq_some_iff.mp h
  simp [children]

structure IsLeaf (v : Value) : Prop where
  opt : ∀ w, v ≠ .opt (some w)
  vec : ∀ items, v ≠ .vec items
  record : ∀ values, v ≠ .record values
  variant : ∀ id w, v ≠ .variant id w

/-- What holds of leaves and of the four kinds of values that hold others holds of every value. -/
@[elab_as_elim]
theorem forms {P : Value → Prop} (leaf : ∀ v, IsLeaf v → P v) (opt : ∀ w, P (.opt (some w)))
    (vec : ∀ items, P (.vec items)) (record : ∀ values, P (.record values))
    (variant : ∀ id w, P (.variant id w)) (v : Value) : P v := by
  cases v with
  | opt inner =>
    cases inner with
    | none => exact leaf _ ⟨nofun, nofun, nofun, nofun⟩
    | some w => exact opt w
  | vec items => exact vec items
  | record values => exact record values
  | variant id w => exact variant id w
  | _ => exact leaf _ ⟨nofun, nofun, nofun, nofun⟩

/-- What a walk over a value does with whole leaves and in front of what values hold. -/
structure Marks (σ : Type) where
  prim : Value → Prim → Option (Step σ Unit)
  absent : Step σ Unit
  present : Step σ Unit
  count : Nat → Step σ Unit
  tag : UInt32 → Step σ Unit
  blob : List UInt8 → Step σ Unit
  func : Option FuncRef → Step σ Unit
  service : Option (List UInt8) → Step σ Unit

/-- Walks that go down from a value by a type, with how they take the elements of a vector and the
fields of a record; `write` is one of them and `addSize` another. -/
structure IsWalk {σ : Type} (walk : Table → Value → Ty → Step σ Unit)
    (walkItems : Table → List Value → Ty → Step σ Unit)
    (walkFields : Table → List (UInt32 × Value) → Assoc UInt32 (Ty → Step σ Unit))
    (marks : Marks σ) : Prop where
  leaf : ∀ t v type, IsLeaf v → walk t v type =
    dispatch t type v (marks.prim v) fun c =>
      match c, v with
      | .opt _, .opt none => marks.absent
      | .vec inner, .blob bytes => do
        if (← Step.ofExcept (t.follow inner)).isPrim .nat8 then marks.blob bytes
        else Step.fail (mismatch (.composite c) v)
      | .func .., .func ref => marks.func ref
      | .service _, .service id => marks.service id
      | .future .., .future bytes => marks.blob bytes
      | _, _ => Step.fail (mismatch (.composite c) v)
  opt : ∀ t w type, walk t (.opt (some w)) type =
    dispatch t type (.opt (some w)) (fun _ => none) fun
      | .opt inner => do
        marks.present
        walk t w inner
      | c => Step.fail (mismatch (.composite c) (.opt (some w)))
  vec : ∀ t items type, walk t (.vec items) type =
    dispatch t type (.vec items) (fun _ => none) fun
      | .vec inner => do
        marks.count items.length
        walkItems t items inner
      | c => Step.fail (mismatch (.composite c) (.vec items))
  record : ∀ t values type, walk t (.record values) type =
    dispatch t type (.record values) (fun _ => none) fun
      | .record fields => do
        let fields ← Step.ofExcept (recordFields fields values)
        eachField (walkFields t values) fields
      | c => Step.fail (mismatch (.composite c) (.record values))
  variant : ∀ t id w type, walk t (.variant id w) type =
    dispatch t type (.variant id w) (fun _ => none) fun
      | .variant fields =>
        match findField? fields id with
        | some f => do
          marks.tag id
          walk t w f.type
        | none => Step.fail (unknownAlternative (.composite (.variant fields)) id)
      | c => Step.fail (mismatch (.composite c) (.variant id w))
  noItems : ∀ t type, walkItems t [] type = pure ()
  nextItem : ∀ t w items type, walkItems t (w :: items) type =
    (do walk t w type; walkItems t items type)
  noFields : ∀ t, walkFields t [] = []
  nextField : ∀ t id w values, walkFields t ((id, w) :: values) = (id, walk t w) :: walkFields t values

theorem forM_concur {σ : Type} {items : List Value} {f g : Value → Step σ Unit}
    (h : ∀ w ∈ items, (f w).Concur (g w)) : (items.forM f).Concur (items.forM g) := by
  induction items with
  | nil => exact .refl _
  | cons w items ih =>
    exact (h w List.mem_cons_self).bind fun _ => ih fun v hv => h v (List.mem_cons_of_mem _ hv)

theorem lookup_map {σ : Type} (f : Value → σ) (values : List (UInt32 × Value)) (id : UInt32) :
    (values.map fun p => (p.1, f p.2)).lookup id = (values.lookup id).map f := by
  induction values with
  | nil => rfl
  | cons p values ih =>
    rw [List.map_cons, List.lookup_cons, List.lookup_cons, ih]
    cases id == p.1 <;> rfl

namespace IsWalk
variable {σ : Type} {walk : Table → Value → Ty → Step σ Unit}
  {walkItems : Table → List Value → Ty → Step σ Unit}
  {walkFields : Table → List (UInt32 × Value) → Assoc UInt32 (Ty → Step σ Unit)} {marks : Marks σ}
  (hwalk : IsWalk walk walkItems walkFields marks)

section Lists
include hwalk

theorem items_eq (t : Table) (items : List Value) (type : Ty) :
    walkItems t items type = items.forM (walk t · type) := by
  induction items with
  | nil => exact hwalk.noItems t type
  | cons w items ih =>
    rw [hwalk.nextItem, ih]
    rfl

theorem fields_eq (t : Table) (values : List (UInt32 × Value)) :
    walkFields t values = values.map fun p => (p.1, walk t p.2) := by
  induction values with
  | nil => exact hwalk.noFields t
  | cons p values ih => rw [hwalk.nextField, ih, List.map_cons]

end Lists

variable (h : Table.ShowAlike R t u)
include hwalk h

theorem leaf_concur {v : Value} (hv : IsLeaf v) (hab : R a b) :
    (walk t v a).Concur (walk u v b) := by
  rw [hwalk.leaf t v a hv, hwalk.leaf u v b hv]
  refine dispatch_concur h hab v _ fun c d hcd => ?_
  cases hcd with
  | vec hr =>
    cases v
    case blob bytes =>
      refine .ofExcept (h _ _ hr) fun x y hxy => ?_
      rw [Head.isPrim_of_rel hxy]
      split
      · exact .refl _
      · exact .fail (mismatch_kind _ _ _)
    all_goals exact .fail (mismatch_kind _ _ _)
  | opt hr =>
    cases v
    case opt w =>
      cases w with
      | none => exact .refl _
      | some w => exact absurd rfl (hv.opt w)
    all_goals exact .fail (mismatch_kind _ _ _)
  | record | variant | func | service | future =>
    cases v <;> first | exact .refl _ | exact .fail (mismatch_kind _ _ _)

/-- A walk takes the same steps by related types. -/
theorem concur (v : Value) (hab : R a b) : (walk t v a).Concur (walk u v b) := by
  induction v using induct generalizing a b with
  | step v ih =>
    cases v using forms with
    | leaf v hv => exact hwalk.leaf_concur h hv hab
    | opt w =>
      rw [hwalk.opt, hwalk.opt]
      refine dispatch_concur h hab _ _ fun c d hcd => ?_
      cases hcd with
      | opt hr => exact Step.Concur.bind (.refl _) fun _ => ih w (List.mem_singleton_self w) hr
      | _ => exact .fail (mismatch_kind _ _ _)
    | vec items =>
      rw [hwalk.vec, hwalk.vec]
      refine dispatch_concur h hab _ _ fun c d hcd => ?_
      cases hcd with
      | vec hr =>
        dsimp only
        rw [hwalk.items_eq, hwalk.items_eq]
        exact Step.Concur.bind (.refl _) fun _ => forM_concur fun w hw => ih w hw hr
      | _ => exact .fail (mismatch_kind _ _ _)
    | record values =>
      rw [hwalk.record, hwalk.record]
      refine dispatch_concur h hab _ _ fun c d hcd => ?_
      cases hcd with
      | record hfg =>
        refine .ofExcept (recordFields_concur values hfg) fun fs gs hfg => ?_
        rw [hwalk.fields_eq, hwalk.fields_eq]
        refine eachField_concur hfg fun id => ?_
        rw [lookup_map, lookup_map]
        cases hw : values.lookup id with
        | none => exact .none
        | some w => exact .some fun a b hab => ih w (mem_of_lookup hw) hab
      | _ => exact .fail (mismatch_kind _ _ _)
    | variant id w =>
      rw [hwalk.variant, hwalk.variant]
      refine dispatch_concur h hab _ _ fun c d hcd => ?_
      cases hcd with
      | variant hfg =>
        have hfield := findField?_rel id hfg
        dsimp only
        generalize findField? _ id = x at hfield ⊢
        generalize findField? _ id = y at hfield ⊢
        cases hfield with
        | none => exact .fail (unknownAlternative_kind _ _ _)
        | some hr => exact Step.Concur.bind (.refl _) fun _ => ih w (List.mem_singleton_self w) hr
      | _ => exact .fail (mismatch_kind _ _ _)

end IsWalk

theorem isWalk_write : IsWalk write writeItems writers
    { prim := fun v p => (p.bytes? v).map Writer.bytes
      absent := Writer.byte 0
      present := Writer.byte 1
      count := fun n => Writer.bytes (Varint.ofNat n)
      tag := fun id => Writer.bytes (Varint.ofNat id.toNat)
      blob := fun bytes => Writer.bytes (Writer.blob bytes)
      func := fun ref => Writer.bytes (funcBytes ref)
      service := fun id => Writer.bytes (referenceBytes id) } where
  leaf t v type hv := write.eq_5 t v type hv.opt hv.vec hv.record hv.variant
  opt t w type := write.eq_1 t type w
  vec t items type := write.eq_2 t type items
  record t values type := write.eq_3 t type values
  variant t id w type := write.eq_4 t type id w
  noItems := writeItems.eq_1
  nextItem t w items type := by
    funext out
    simp only [writeItems, Step.bind_apply]
    rcases write t w type out with ⟨_ | _, _⟩ <;> rfl
  noFields := writers.eq_1
  nextField := writers.eq_2

theorem isWalk_addSize : IsWalk addSize addSizes sizers
    { prim := fun v p => (p.size? v).map more
      absent := more 1
      present := more 1
      count := fun n => more (Varint.sizeNat n)
      tag := fun id => more (Varint.sizeNat id.toNat)
      blob := fun bytes => more (Writer.sizeBlob bytes.length)
      func := fun ref => more (funcSize ref)
      service := fun id => more (referenceSize id) } where
  leaf t v type hv := addSize.eq_5 t v type hv.opt hv.vec hv.record hv.variant
  opt t w type := addSize.eq_1 t type w
  vec t items type := addSize.eq_2 t type items
  record t values type := addSize.eq_3 t type values
  variant t id w type := addSize.eq_4 t type id w
  noItems := addSizes.eq_1
  nextItem t w items type := by
    funext sum
    simp only [addSizes, Step.bind_apply]
    rcases addSize t w type sum with ⟨_ | _, _⟩ <;> rfl
  noFields := sizers.eq_1
  nextField := sizers.eq_2

theorem size_concur (h : Table.ShowAlike R t u) (v : Value) (hab : R a b) :
    Concur Eq (v.size t a) (v.size u b) := by
  unfold size
  obtain ⟨_, sum, hx, hy⟩ | ⟨e, e', sum, hx, hy, he⟩ := (isWalk_addSize.concur h v hab).run 0
  · rw [hx, hy]
    exact .ok rfl
  · rw [hx, hy]
    exact .error he

theorem encode_concur (h : Table.ShowAlike R t u) (v : Value) (hab : R a b) :
    Concur Eq (v.encode t a) (v.encode u b) := by
  refine (size_concur h v hab).bind fun _ _ _ => ?_
  obtain ⟨_, bytes, hx, hy⟩ | ⟨e, e', bytes, hx, hy, he⟩ := (isWalk_write.concur h v hab).run #[]
  · rw [hx, hy]
    exact .ok rfl
  · rw [hx, hy]
    exact .error he

end Value

end Didl
