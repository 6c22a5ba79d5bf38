import Didl.Proofs.Composites

namespace Didl

@[simp] theorem Composite.members_map {α β : Type} (f : α → β) (c : Composite α) :
    (c.map f).members = c.members.map f := by
  cases c <;> simp [map, members]

theorem Composite.sizeOf_lt_of_mem {c : Composite Ty} {t : Ty} (h : t ∈ c.members) :
    sizeOf t < sizeOf c := by
  cases c with
  | opt u | vec u =>
    rw [List.mem_singleton.mp h]
    simp
  | record fs | variant fs =>
    obtain ⟨x, hx, rfl⟩ := List.mem_map.mp h
    have := List.sizeOf_lt_of_mem hx
    obtain ⟨id, name, type⟩ := x
    simp_all
    omega
  | func ts rs modes =>
    rcases List.mem_append.mp h with ht | hr
    · have := List.sizeOf_lt_of_mem ht
      simp
      omega
    · have := List.sizeOf_lt_of_mem hr
      simp
      omega
  | service ms =>
    obtain ⟨x, hx, rfl⟩ := List.mem_map.mp h
    have := List.sizeOf_lt_of_mem hx
    obtain ⟨name, type⟩ := x
    simp_all
    omega
  | future opcode payload => simp [members] at h

namespace Ty

/-- What holds of primitive types and of names, and of a composite wherever it holds of the
members, holds of every type. -/
@[elab_as_elim]
theorem induct {P : Ty → Prop} (prim : ∀ p, P (.prim p)) (named : ∀ x, P (.named x))
    (composite : ∀ c : Composite Ty, (∀ t ∈ c.members, P t) → P (.composite c)) :
    ∀ t, P t
  | .prim p => prim p
  | .named x => named x
  | .composite c => composite c fun t _ => induct prim named composite t
termination_by t => sizeOf t
decreasing_by
  have := Composite.sizeOf_lt_of_mem ‹_›
  simp
  omega

theorem sameFields_iff {xs ys : List (Field Ty)} :
    sameFields xs ys = true ↔ List.Forall₂ (Field.Rel fun t u => t.same u = true) xs ys := by
  induction xs generalizing ys with
  | nil => cases ys <;> simp [sameFields]
  | cons x xs ih => cases ys <;> simp [sameFields, Field.Rel, ih]

theorem sameTypes_iff {ts us : List Ty} :
    sameTypes ts us = true ↔ List.Forall₂ (fun t u => t.same u = true) ts us := by
  induction ts generalizing us with
  | nil => cases us <;> simp [sameTypes]
  | cons t ts ih => cases us <;> simp [sameTypes, ih]

theorem sameMethods_iff {xs ys : List (Method Ty)} :
    sameMethods xs ys = true ↔ List.Forall₂ (Method.Rel fun t u => t.same u = true) xs ys := by
  induction xs generalizing ys with
  | nil => cases ys <;> simp [sameMethods]
  | cons x xs ih => cases ys <;> simp [sameMethods, Method.Rel, ih]

theorem same_composite {c d : Composite Ty} :
    same (.composite c) (.composite d) = true ↔ c.Rel (fun t u => t.same u = true) d := by
  rw [same]
  constructor
  · intro h
    cases c <;> cases d <;> simp only [sameComposite, Bool.and_eq_true, beq_iff_eq,
      Bool.false_eq_true] at h
    · exact .opt h
    · exact .vec h
    · exact .record (sameFields_iff.mp h)
    · exact .variant (sameFields_iff.mp h)
    · obtain ⟨⟨rfl, ht⟩, hr⟩ := h
      exact .func _ (sameTypes_iff.mp ht) (sameTypes_iff.mp hr)
    · exact .service (sameMethods_iff.mp h)
    · obtain ⟨rfl, rfl⟩ := h
      exact .future _ _
  · intro h
    cases h with
    | opt h => exact h
    | vec h => exact h
    | record h => exact sameFields_iff.mpr h
    | variant h => exact sameFields_iff.mpr h
    | func modes ht hr =>
      simp only [sameComposite, beq_self_eq_true, sameTypes_iff.mpr ht, sameTypes_iff.mpr hr,
        Bool.and_self]
    | service h => exact sameMethods_iff.mpr h
    | future opcode payload => simp [sameComposite]

section Fold
variable {β : Type} (prim : Prim → β) (named : String → β) (composite : Composite (Ty × β) → β)

theorem foldFields_eq (fs : List (Field Ty)) : foldFields prim named composite fs =
    fs.map fun x => ⟨x.id, x.name, (x.type, fold prim named composite x.type)⟩ := by
  induction fs with
  | nil => rfl
  | cons x xs ih => rw [foldFields, ih]; rfl

theorem foldTypes_eq (ts : List Ty) : foldTypes prim named composite ts =
    ts.map fun t => (t, fold prim named composite t) := by
  induction ts with
  | nil => rfl
  | cons t ts ih => rw [foldTypes, ih]; rfl

theorem foldMethods_eq (ms : List (Method Ty)) : foldMethods prim named composite ms =
    ms.map fun x => ⟨x.name, (x.type, fold prim named composite x.type)⟩ := by
  induction ms with
  | nil => rfl
  | cons x xs ih => rw [foldMethods, ih]; rfl

theorem fold_composite (c : Composite Ty) : fold prim named composite (.composite c) =
    composite (c.map fun t => (t, fold prim named composite t)) := by
  cases c <;> simp only [fold, foldComposite, foldFields_eq, foldTypes_eq, foldMethods_eq,
    Composite.map]

end Fold

theorem flatMap_snd {β : Type} (f : Ty → List β) (c : Composite Ty) :
    (c.map fun t => (t, f t)).members.flatMap Prod.snd = c.members.flatMap f := by
  rw [Composite.members_map, List.flatMap_map]

theorem map_fst {β : Type} (f : Ty → β) (c : Composite Ty) :
    (c.map fun t => (t, f t)).map Prod.fst = c := by
  cases c <;> simp [Composite.map, Function.comp_def]

theorem parts_composite (c : Composite Ty) :
    parts (.composite c) = c :: c.members.flatMap parts := by
  rw [parts, fold_composite, map_fst, flatMap_snd]

theorem names_composite (c : Composite Ty) :
    names (.composite c) = c.members.flatMap names := by
  rw [names, fold_composite, flatMap_snd]

theorem size_composite (c : Composite Ty) :
    size (.composite c) = (c.members.map size).sum + 1 := by
  have hfold : ∀ (xs : List (Ty × Nat)) (n : Nat),
      xs.foldl (fun n x => n + x.2) n = (xs.map Prod.snd).sum + n := by
    intro xs
    induction xs with
    | nil => intro n; simp
    | cons x xs ih =>
      intro n
      rw [List.foldl_cons, ih, List.map_cons, List.sum_cons]
      omega
  rw [size, fold_composite, hfold, Composite.members_map, List.map_map]
  rfl

theorem same_refl (t : Ty) : t.same t = true := by
  induction t using induct with
  | prim p => simp [same]
  | named x => simp [same]
  | composite c ih => exact same_composite.2 (.of_refl ih)

theorem same_symm {t u : Ty} (h : t.same u = true) : u.same t = true := by
  induction t using induct generalizing u with
  | prim p =>
    cases u <;> simp_all [same]
  | named x =>
    cases u <;> simp_all [same]
  | composite c ih =>
    cases u with
    | prim | named => simp [same] at h
    | composite d =>
      have hr := (same_composite.1 h).and_left ih
      exact same_composite.2 (hr.flip.imp fun _ _ ⟨hsymm, hs⟩ => hsymm hs)

theorem same_trans {t u v : Ty} (h : t.same u = true) (k : u.same v = true) :
    t.same v = true := by
  induction t using induct generalizing u v with
  | prim p =>
    cases u <;> cases v <;> simp_all [same]
  | named x =>
    cases u <;> cases v <;> simp_all [same]
  | composite c ih =>
    cases u with
    | prim | named => simp [same] at h
    | composite d =>
      cases v with
      | prim | named => simp [same] at k
      | composite e =>
        have hr := ((same_composite.1 h).and_left ih).comp (same_composite.1 k)
        exact same_composite.2 (hr.imp fun _ _ ⟨_, ⟨htrans, hs⟩, ks⟩ => htrans hs ks)

theorem size_lt_of_member {c : Composite Ty} {m : Ty} (h : m ∈ c.members) :
    m.size < (composite c).size := by
  rw [size_composite]
  exact Nat.lt_succ_of_le (List.single_le_sum (by simp) _ (List.mem_map_of_mem h))

/-- What is computed from the results for the members is the same for types that are the same. -/
theorem eq_of_same {β : Type} {g : Ty → β} {k : List β → β}
    (hg : ∀ c, g (.composite c) = k (c.members.map g)) {a b : Ty} (h : a.same b = true) :
    g a = g b := by
  induction a using induct generalizing b with
  | prim p => cases b <;> simp_all [same]
  | named x => cases b <;> simp_all [same]
  | composite c ih =>
    cases b with
    | prim | named => simp [same] at h
    | composite d =>
      have hmembers := ((same_composite.1 h).and_left ih).members
      have heq : c.members.map g = d.members.map g := by
        rw [← List.forall₂_eq_eq_eq, List.forall₂_map_left_iff, List.forall₂_map_right_iff]
        exact hmembers.imp fun _ _ ⟨hmember, hsame⟩ => hmember hsame
      rw [hg, hg, heq]

theorem size_of_same {a b : Ty} (h : a.same b = true) : a.size = b.size :=
  eq_of_same (k := fun ns => ns.sum + 1) size_composite h

theorem names_of_same {a b : Ty} (h : a.same b = true) : a.names = b.names :=
  eq_of_same (fun c => (names_composite c).trans List.flatMap_def) h

/-- What occurs in a type occurs, up to names of fields, in every type that is the same. -/
theorem parts_of_same {a b : Ty} (h : a.same b = true) {c : Composite Ty} (hc : c ∈ a.parts) :
    ∃ d ∈ b.parts, (composite d).same (.composite c) = true := by
  induction a using induct generalizing b with
  | prim | named => cases hc
  | composite e ih =>
    cases b with
    | prim | named => simp [same] at h
    | composite f =>
      rw [parts_composite] at hc ⊢
      rcases List.mem_cons.mp hc with rfl | hc
      · exact ⟨f, List.mem_cons_self, same_symm h⟩
      · obtain ⟨m, hm, hc⟩ := List.mem_flatMap.mp hc
        have hmembers := (same_composite.1 h).flip.members
        obtain ⟨n, hn, hsame⟩ := exists_of_mem_right hmembers hm
        obtain ⟨d, hd, hdc⟩ := ih m hm hsame hc
        exact ⟨d, List.mem_cons_of_mem _ (List.mem_flatMap.mpr ⟨n, hn, hd⟩), hdc⟩

theorem parts_subset {type : Ty} {c : Composite Ty} (h : c ∈ type.parts) :
    (composite c).parts ⊆ type.parts := by
  induction type using induct with
  | prim | named => cases h
  | composite d ih =>
    rw [parts_composite d] at h
    rcases List.mem_cons.mp h with rfl | h
    · exact fun _ he => he
    · obtain ⟨m, hm, h⟩ := List.mem_flatMap.mp h
      intro e he
      rw [parts_composite d]
      exact List.mem_cons_of_mem _ (List.mem_flatMap.mpr ⟨m, hm, ih m hm h he⟩)

theorem names_of_parts {type : Ty} {c : Composite Ty} (h : c ∈ type.parts) :
    (composite c).names ⊆ type.names := by
  induction type using induct with
  | prim | named => cases h
  | composite d ih =>
    rw [parts_composite] at h
    rcases List.mem_cons.mp h with rfl | h
    · exact fun _ hx => hx
    · obtain ⟨m, hm, hc⟩ := List.mem_flatMap.mp h
      intro x hx
      rw [names_composite d]
      exact List.mem_flatMap.mpr ⟨m, hm, ih m hm hc hx⟩

end Ty

end Didl
