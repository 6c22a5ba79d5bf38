import Mathlib
import Didl.Type.Basic
import Didl.Proofs.Sorting

namespace Didl
variable {α β γ : Type}

/-- The outermost former of a type with all of its labels, and nothing of its members but how
many they are. The names of fields are no part of it. -/
inductive Shape where
  | prim (p : Prim)
  | opt
  | vec
  | record (ids : List UInt32)
  | variant (ids : List UInt32)
  | func (args results : Nat) (modes : List Mode)
  | service (names : List String)
  | future (opcode : Int64) (payload : List UInt8)
  deriving DecidableEq

def Shape.arity : Shape → Nat
  | .opt | .vec => 1
  | .record ids | .variant ids => ids.length
  | .func args results _ => args + results
  | .service names => names.length
  | .prim _ | .future .. => 0

def Composite.shape : Composite α → Shape
  | .opt _ => .opt
  | .vec _ => .vec
  | .record fs => .record (fs.map (·.id))
  | .variant fs => .variant (fs.map (·.id))
  | .func args results modes => .func args.length results.length modes
  | .service ms => .service (ms.map (·.name))
  | .future opcode payload => .future opcode payload

theorem Composite.length_members (c : Composite α) : c.members.length = c.shape.arity := by
  cases c <;> simp [members, shape, Shape.arity]

def Field.Rel (R : α → β → Prop) (x : Field α) (y : Field β) : Prop :=
  x.id = y.id ∧ R x.type y.type

def Method.Rel (R : α → β → Prop) (x : Method α) (y : Method β) : Prop :=
  x.name = y.name ∧ R x.type y.type

/-- Two composites of one former and with the same labels whose members are related one by one. -/
inductive Composite.Rel (R : α → β → Prop) : Composite α → Composite β → Prop
  | opt {x y} : R x y → Rel R (.opt x) (.opt y)
  | vec {x y} : R x y → Rel R (.vec x) (.vec y)
  | record {xs ys} : List.Forall₂ (Field.Rel R) xs ys → Rel R (.record xs) (.record ys)
  | variant {xs ys} : List.Forall₂ (Field.Rel R) xs ys → Rel R (.variant xs) (.variant ys)
  | func {ts us rs ss} (modes : List Mode) : List.Forall₂ R ts us → List.Forall₂ R rs ss →
      Rel R (.func ts rs modes) (.func us ss modes)
  | service {xs ys} : List.Forall₂ (Method.Rel R) xs ys → Rel R (.service xs) (.service ys)
  | future (opcode : Int64) (payload : List UInt8) :
      Rel R (.future opcode payload) (.future opcode payload)

theorem exists_of_mem_right {R : α → β → Prop} {as : List α} {bs : List β}
    (h : List.Forall₂ R as bs) {b : β} (hb : b ∈ bs) : ∃ a ∈ as, R a b := by
  induction h with
  | nil => cases hb
  | cons hr _ ih =>
    rcases List.mem_cons.mp hb with rfl | hb
    · exact ⟨_, List.mem_cons_self, hr⟩
    · obtain ⟨a, ha, hab⟩ := ih hb
      exact ⟨a, List.mem_cons_of_mem _ ha, hab⟩

theorem exists_forall₂ {R : α → β → Prop} {as : List α} (h : ∀ a ∈ as, ∃ b, R a b) :
    ∃ bs, List.Forall₂ R as bs := by
  induction as with
  | nil => exact ⟨[], .nil⟩
  | cons a as ih =>
    obtain ⟨b, hb⟩ := h a List.mem_cons_self
    obtain ⟨bs, hbs⟩ := ih fun x hx => h x (List.mem_cons_of_mem _ hx)
    exact ⟨b :: bs, .cons hb hbs⟩

theorem forall₂_getElem? {R : α → β → Prop} {as : List α} {bs : List β} (h : List.Forall₂ R as bs)
    (i : Nat) : Option.Rel R as[i]? bs[i]? := by
  induction h generalizing i with
  | nil => exact .none
  | cons hr _ ih =>
    cases i with
    | zero => exact .some hr
    | succ i => simpa using ih i

theorem forall₂_comp {R : α → β → Prop} {S : β → γ → Prop} {as : List α} {bs : List β} {cs : List γ}
    (h : List.Forall₂ R as bs) (k : List.Forall₂ S bs cs) :
    List.Forall₂ (fun a c => ∃ b, R a b ∧ S b c) as cs := by
  induction h generalizing cs with
  | nil =>
    cases k
    exact .nil
  | cons hab _ ih =>
    cases k with
    | cons hbc k => exact .cons ⟨_, hab, hbc⟩ (ih k)

theorem forall₂_fields {R : α → β → Prop} {xs : List (Field α)} {ys : List (Field β)} :
    List.Forall₂ (Field.Rel R) xs ys ↔
      xs.map (·.id) = ys.map (·.id) ∧ List.Forall₂ R (xs.map (·.type)) (ys.map (·.type)) := by
  induction xs generalizing ys with
  | nil => cases ys <;> simp
  | cons x xs ih =>
    cases ys with
    | nil => simp
    | cons y ys =>
      simp only [List.forall₂_cons, List.map_cons, List.cons.injEq, ih, Field.Rel]
      constructor
      · rintro ⟨⟨hid, hr⟩, hids, hrs⟩
        exact ⟨⟨hid, hids⟩, hr, hrs⟩
      · rintro ⟨⟨hid, hids⟩, hr, hrs⟩
        exact ⟨⟨hid, hr⟩, hids, hrs⟩

theorem forall₂_methods {R : α → β → Prop} {xs : List (Method α)} {ys : List (Method β)} :
    List.Forall₂ (Method.Rel R) xs ys ↔
      xs.map (·.name) = ys.map (·.name) ∧ List.Forall₂ R (xs.map (·.type)) (ys.map (·.type)) := by
  induction xs generalizing ys with
  | nil => cases ys <;> simp
  | cons x xs ih =>
    cases ys with
    | nil => simp
    | cons y ys =>
      simp only [List.forall₂_cons, List.map_cons, List.cons.injEq, ih, Method.Rel]
      constructor
      · rintro ⟨⟨hname, hr⟩, hnames, hrs⟩
        exact ⟨⟨hname, hnames⟩, hr, hrs⟩
      · rintro ⟨⟨hname, hnames⟩, hr, hrs⟩
        exact ⟨⟨hname, hr⟩, hnames, hrs⟩

theorem forall₂_append_iff {R : α → β → Prop} {as as' : List α} {bs bs' : List β}
    (h : as.length = bs.length) :
    List.Forall₂ R (as ++ as') (bs ++ bs') ↔ List.Forall₂ R as bs ∧ List.Forall₂ R as' bs' := by
  constructor
  · intro hr
    have htake := List.forall₂_take_append _ _ _ hr
    have hdrop := List.forall₂_drop_append _ _ _ hr
    rw [← h, List.take_left] at htake
    rw [← h, List.drop_left] at hdrop
    exact ⟨htake, hdrop⟩
  · rintro ⟨hr, hr'⟩
    exact List.rel_append hr hr'

namespace Composite

/-- To be related is to have one shape and related members. -/
theorem rel_iff {R : α → β → Prop} {c : Composite α} {d : Composite β} :
    c.Rel R d ↔ c.shape = d.shape ∧ List.Forall₂ R c.members d.members := by
  constructor
  · intro h
    cases h with
    | opt h => exact ⟨rfl, .cons h .nil⟩
    | vec h => exact ⟨rfl, .cons h .nil⟩
    | record h => exact ⟨congrArg Shape.record (forall₂_fields.mp h).1, (forall₂_fields.mp h).2⟩
    | variant h => exact ⟨congrArg Shape.variant (forall₂_fields.mp h).1, (forall₂_fields.mp h).2⟩
    | func modes ht hr =>
      refine ⟨?_, (forall₂_append_iff ht.length_eq).mpr ⟨ht, hr⟩⟩
      simp only [shape, ht.length_eq, hr.length_eq]
    | service h =>
      exact ⟨congrArg Shape.service (forall₂_methods.mp h).1, (forall₂_methods.mp h).2⟩
    | future opcode payload => exact ⟨rfl, .nil⟩
  · rintro ⟨hs, hm⟩
    cases c <;> cases d <;> simp only [shape, reduceCtorEq] at hs
    · exact .opt (List.forall₂_cons.mp hm).1
    · exact .vec (List.forall₂_cons.mp hm).1
    · exact .record (forall₂_fields.mpr ⟨Shape.record.inj hs, hm⟩)
    · exact .variant (forall₂_fields.mpr ⟨Shape.variant.inj hs, hm⟩)
    · obtain ⟨ht, -, rfl⟩ := Shape.func.inj hs
      obtain ⟨hts, hrs⟩ := (forall₂_append_iff ht).mp hm
      exact .func _ hts hrs
    · exact .service (forall₂_methods.mpr ⟨Shape.service.inj hs, hm⟩)
    · obtain ⟨rfl, rfl⟩ := Shape.future.inj hs
      exact .future _ _

namespace Rel
variable {R : α → β → Prop} {c : Composite α} {d : Composite β}

theorem shape_eq (h : c.Rel R d) : c.shape = d.shape := (rel_iff.1 h).1

theorem members (h : c.Rel R d) : List.Forall₂ R c.members d.members := (rel_iff.1 h).2

theorem imp {S : α → β → Prop} (h : c.Rel R d) (hi : ∀ x y, R x y → S x y) : c.Rel S d :=
  rel_iff.2 ⟨h.shape_eq, h.members.imp hi⟩

theorem flip (h : c.Rel R d) : d.Rel (fun y x => R x y) c :=
  rel_iff.2 ⟨h.shape_eq.symm, h.members.flip⟩

theorem and_left {P : α → Prop} (h : c.Rel R d) (hp : ∀ x ∈ c.members, P x) :
    c.Rel (fun x y => P x ∧ R x y) d :=
  rel_iff.2 ⟨h.shape_eq, (List.forall₂_and_left _ _).mpr ⟨hp, h.members⟩⟩

theorem comp {S : β → γ → Prop} {e : Composite γ} (h : c.Rel R d) (k : d.Rel S e) :
    c.Rel (fun x z => ∃ y, R x y ∧ S y z) e :=
  rel_iff.2 ⟨h.shape_eq.trans k.shape_eq, forall₂_comp h.members k.members⟩

theorem of_refl {R : α → α → Prop} {c : Composite α} (h : ∀ x ∈ c.members, R x x) : c.Rel R c :=
  rel_iff.2 ⟨rfl, List.forall₂_same.mpr h⟩

/-- Sorting by labels sorts related composites alike. -/
theorem canonical (h : c.Rel R d) : c.canonical.Rel R d.canonical := by
  cases h with
  | opt h => exact .opt h
  | vec h => exact .vec h
  | record h => exact .record (sortBy_forall₂ (fun _ _ hr => hr.1) h)
  | variant h => exact .variant (sortBy_forall₂ (fun _ _ hr => hr.1) h)
  | func modes ht hr => exact .func modes ht hr
  | service h => exact .service (sortBy_forall₂ (fun _ _ hr => hr.1) h)
  | future opcode payload => exact .future opcode payload

end Rel

theorem mem_members_canonical {c : Composite α} {x : α} : x ∈ c.canonical.members ↔ x ∈ c.members := by
  cases c with
  | record fs => exact ((sortBy_perm (·.id) fs).map (·.type)).mem_iff
  | variant fs => exact ((sortBy_perm (·.id) fs).map (·.type)).mem_iff
  | service ms => exact ((sortBy_perm (·.name) ms).map (·.type)).mem_iff
  | opt | vec | func | future => exact Iff.rfl

end Composite

end Didl
