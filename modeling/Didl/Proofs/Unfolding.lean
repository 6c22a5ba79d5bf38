import Didl.Table.Basic
import Didl.Proofs.Types

namespace Didl
variable {α β γ : Type}

/-- What a place in a graph of types shows: a primitive type, or a composite whose members are
places again. -/
inductive Former (α : Type) where
  | prim (p : Prim)
  | composite (c : Composite α)

namespace Former

def shape : Former α → Shape
  | prim p => .prim p
  | composite c => c.shape

def members : Former α → List α
  | prim _ => []
  | composite c => c.members

def canonical : Former α → Former α
  | prim p => prim p
  | composite c => composite c.canonical

inductive Rel (R : α → β → Prop) : Former α → Former β → Prop
  | prim (p : Prim) : Rel R (.prim p) (.prim p)
  | composite {c d} : c.Rel R d → Rel R (.composite c) (.composite d)

theorem rel_iff {R : α → β → Prop} {f : Former α} {g : Former β} :
    f.Rel R g ↔ f.shape = g.shape ∧ List.Forall₂ R f.members g.members := by
  constructor
  · intro h
    cases h with
    | prim p => exact ⟨rfl, .nil⟩
    | composite h => exact Composite.rel_iff.mp h
  · rintro ⟨hs, hm⟩
    cases f with
    | prim p =>
      cases g with
      | prim q =>
        rw [Shape.prim.inj hs]
        exact .prim q
      | composite d => cases d <;> simp [shape, Composite.shape] at hs
    | composite c =>
      cases g with
      | prim q => cases c <;> simp [shape, Composite.shape] at hs
      | composite d => exact .composite (Composite.rel_iff.mpr ⟨hs, hm⟩)

theorem length_members (f : Former α) : f.members.length = f.shape.arity := by
  cases f with
  | prim p => rfl
  | composite c => exact c.length_members

theorem Rel.imp {R S : α → β → Prop} {f : Former α} {g : Former β} (h : f.Rel R g)
    (hi : ∀ x y, R x y → S x y) : f.Rel S g := by
  cases h with
  | prim p => exact .prim p
  | composite h => exact .composite (h.imp hi)

theorem Rel.flip {R : α → β → Prop} {f : Former α} {g : Former β} (h : f.Rel R g) :
    g.Rel (fun y x => R x y) f := by
  cases h with
  | prim p => exact .prim p
  | composite h => exact .composite h.flip

theorem Rel.comp {R : α → β → Prop} {S : β → γ → Prop} {f : Former α} {g : Former β}
    {k : Former γ} (h : f.Rel R g) (h' : g.Rel S k) : f.Rel (fun x z => ∃ y, R x y ∧ S y z) k := by
  cases h with
  | prim p =>
    cases h'
    exact .prim p
  | composite h =>
    cases h' with
    | composite h' => exact .composite (h.comp h')

theorem Rel.canonical {R : α → β → Prop} {f : Former α} {g : Former β} (h : f.Rel R g) :
    f.canonical.Rel R g.canonical := by
  cases h with
  | prim p => exact .prim p
  | composite h => exact .composite h.canonical

end Former

/-- An infinite tree by its paths: the shape that stands at the end of each path of member
positions, if the path leads anywhere. -/
abbrev Unfolding : Type := List Nat → Option Shape

def unfold (next : α → Option (Former α)) (x : α) : Unfolding
  | [] => (next x).map Former.shape
  | i :: path =>
    match next x with
    | some f =>
      match f.members[i]? with
      | some y => unfold next y path
      | none => none
    | none => none

/-- Places that show the same have the same infinite tree. -/
theorem unfold_congr {next : α → Option (Former α)} {x y : α} (h : next x = next y) :
    unfold next x = unfold next y := by
  funext path
  cases path <;> simp only [unfold, h]

/-- Places related by `R` show the same shape, and their members are related again. -/
def IsBisimulation (next : α → Option (Former α)) (next' : β → Option (Former β))
    (R : α → β → Prop) : Prop :=
  ∀ x y, R x y → ∃ f g, next x = some f ∧ next' y = some g ∧ f.Rel R g

section Bisimulation
variable {next : α → Option (Former α)} {next' : β → Option (Former β)}

/-- Related places have the same infinite tree. -/
theorem IsBisimulation.unfold_eq {R : α → β → Prop} (h : IsBisimulation next next' R) {x : α}
    {y : β} (hr : R x y) : unfold next x = unfold next' y := by
  funext path
  induction path generalizing x y with
  | nil =>
    obtain ⟨f, g, hf, hg, hfg⟩ := h x y hr
    simp [unfold, hf, hg, (Former.rel_iff.mp hfg).1]
  | cons i path ih =>
    obtain ⟨f, g, hf, hg, hfg⟩ := h x y hr
    have hm := (Former.rel_iff.mp hfg).2
    simp only [unfold, hf, hg]
    rw [List.forall₂_iff_get] at hm
    by_cases hi : i < f.members.length
    · have hi' : i < g.members.length := hm.1 ▸ hi
      rw [List.getElem?_eq_getElem hi, List.getElem?_eq_getElem hi']
      exact ih (hm.2 i hi hi')
    · rw [List.getElem?_eq_none (by omega), List.getElem?_eq_none (by omega)]

/-- Conversely, equal trees are a bisimulation on places from which nothing is missing. -/
theorem isBisimulation_unfold_eq {P : α → Prop} {Q : β → Prop}
    (hP : ∀ x, P x → ∃ f, next x = some f ∧ ∀ y ∈ f.members, P y)
    (hQ : ∀ x, Q x → ∃ f, next' x = some f ∧ ∀ y ∈ f.members, Q y) :
    IsBisimulation next next' fun x y => P x ∧ Q y ∧ unfold next x = unfold next' y := by
  rintro x y ⟨hx, hy, he⟩
  obtain ⟨f, hf, hfm⟩ := hP x hx
  obtain ⟨g, hg, hgm⟩ := hQ y hy
  have hshape : f.shape = g.shape := by simpa [unfold, hf, hg] using congrFun he []
  refine ⟨f, g, hf, hg, Former.rel_iff.mpr ⟨hshape, ?_⟩⟩
  have hlength : f.members.length = g.members.length := by
    rw [Former.length_members, Former.length_members, hshape]
  refine List.forall₂_iff_get.mpr ⟨hlength, ?_⟩
  intro i hi hi'
  refine ⟨hfm _ (List.get_mem ..), hgm _ (List.get_mem ..), ?_⟩
  funext path
  have hpath := congrFun he (i :: path)
  simp only [unfold, hf, hg] at hpath
  rw [List.getElem?_eq_getElem hi, List.getElem?_eq_getElem hi'] at hpath
  exact hpath

theorem IsBisimulation.flip {R : α → β → Prop} (h : IsBisimulation next next' R) :
    IsBisimulation next' next fun y x => R x y := by
  intro y x hr
  obtain ⟨f, g, hf, hg, hfg⟩ := h x y hr
  exact ⟨g, f, hg, hf, hfg.flip⟩

theorem IsBisimulation.comp {next'' : γ → Option (Former γ)} {R : α → β → Prop} {S : β → γ → Prop}
    (h : IsBisimulation next next' R) (k : IsBisimulation next' next'' S) :
    IsBisimulation next next'' fun x z => ∃ y, R x y ∧ S y z := by
  rintro x z ⟨y, hr, hs⟩
  obtain ⟨f, g, hf, hg, hfg⟩ := h x y hr
  obtain ⟨g', e, hg', he, hge⟩ := k y z hs
  obtain rfl : g = g' := Option.some.inj (hg.symm.trans hg')
  exact ⟨f, e, hf, he, hfg.comp hge⟩

theorem IsBisimulation.canonical {R : α → β → Prop} (h : IsBisimulation next next' R) :
    IsBisimulation (fun x => (next x).map Former.canonical)
      (fun y => (next' y).map Former.canonical) R := by
  intro x y hr
  obtain ⟨f, g, hf, hg, hfg⟩ := h x y hr
  exact ⟨f.canonical, g.canonical, by simp [hf], by simp [hg], hfg.canonical⟩

end Bisimulation

def Head.former : Head → Former Ty
  | .prim p => .prim p
  | .composite c => .composite c

namespace Table

def former (t : Table) (type : Ty) : Option (Former Ty) :=
  match t.follow type with
  | .ok head => some head.former
  | .error _ => none

def canonicalFormer (t : Table) (type : Ty) : Option (Former Ty) :=
  (t.former type).map Former.canonical

/-- The infinite tree that a type stands for in a table, members in the order in which they are
stored. -/
def unfolding (t : Table) (type : Ty) : Unfolding := unfold t.former type

/-- The infinite tree that a type stands for, fields matched by number and methods by name. -/
def unfoldingById (t : Table) (type : Ty) : Unfolding := unfold t.canonicalFormer type

end Table

end Didl
