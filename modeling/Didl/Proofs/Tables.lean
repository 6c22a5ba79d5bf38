import Didl.Prelude.Basic
import Didl.Table.Closure
import Didl.Proofs.Unfolding

namespace Didl.Table

theorem former_eq_some {t : Table} {type : Ty} {f : Former Ty} :
    t.former type = some f ↔ ∃ head, t.follow type = .ok head ∧ head.former = f := by
  unfold former
  cases t.follow type with
  | ok head => simp
  | error e => simp

theorem former_composite (t : Table) (c : Composite Ty) :
    t.former (.composite c) = some (.composite c) := rfl

/-- The types that a type can lead to: through a name to what it is bound to, and from there to
the members. -/
inductive Reach (t : Table) (type : Ty) : Ty → Prop
  | refl : Reach t type type
  | member {u v : Ty} {f : Former Ty} :
      Reach t type u → t.former u = some f → v ∈ f.members → Reach t type v

theorem Reach.trans {t : Table} {a b c : Ty} (h : t.Reach a b) (k : t.Reach b c) : t.Reach a c := by
  induction k with
  | refl => exact h
  | member _ hf hv ih => exact .member ih hf hv

/-- What no step leaves holds of all that a type can lead to. -/
theorem Reach.invariant {t : Table} {P : Ty → Prop}
    (hstep : ∀ u f, P u → t.former u = some f → ∀ v ∈ f.members, P v) {type u : Ty} (h : P type)
    (hu : t.Reach type u) : P u := by
  induction hu with
  | refl => exact h
  | member _ hf hv ih => exact hstep _ _ ih hf _ hv

/-- Every name that a type can lead to is bound. -/
def Closed (t : Table) (type : Ty) : Prop :=
  ∀ x, t.Reach type (.named x) → t.isBound x = true

/-- Every name is bound to a code that stands for a type. -/
def Sound (t : Table) : Prop :=
  ∀ x code, t.labelCode? x = some code → ∃ head, t.typeOfCode code = .ok head

theorem Sound.resolve {t : Table} (h : t.Sound) {x : String} (hx : t.isBound x = true) :
    ∃ head, t.resolve x = .ok head := by
  obtain ⟨code, hcode⟩ := Option.isSome_iff_exists.mp hx
  obtain ⟨head, hhead⟩ := h x code hcode
  exact ⟨head, by simp [Table.resolve, hcode, hhead]⟩

/-- From a closed type every step leads to closed types, and none is missing. -/
theorem Closed.former {t : Table} (hs : t.Sound) {type : Ty} (hc : t.Closed type) :
    ∃ f, t.former type = some f ∧ ∀ m ∈ f.members, t.Closed m := by
  have hfollow : ∃ head, t.follow type = .ok head := by
    cases type with
    | prim p => exact ⟨.prim p, rfl⟩
    | named x => exact hs.resolve (hc x .refl)
    | composite c => exact ⟨.composite c, rfl⟩
  obtain ⟨head, hhead⟩ := hfollow
  have hf := former_eq_some.mpr ⟨head, hhead, rfl⟩
  refine ⟨head.former, hf, ?_⟩
  intro m hm x hx
  exact hc x (Reach.trans (.member .refl hf hm) hx)

section Codes
variable {t : Table}

theorem indexOf?_eq_some {c : Composite Ty} {i : Nat} (h : t.indexOf? c = some i) :
    ∃ e, t.entries[i]? = some e ∧ (Ty.composite e).same (.composite c) = true := by
  obtain ⟨hi, he, -⟩ := List.findIdx?_eq_some_iff_getElem.mp h
  exact ⟨t.entries[i], List.getElem?_eq_getElem hi, he⟩

theorem ofOpcode?_opcode (p : Prim) : Prim.ofOpcode? p.opcode = some p := by
  cases p <;> rfl

theorem opcode_neg (p : Prim) : p.opcode < 0 := by
  cases p <;> decide

theorem typeOfCode_opcode (p : Prim) : t.typeOfCode p.opcode = .ok (.prim p) := by
  simp [typeOfCode, opcode_neg, ofOpcode?_opcode]

theorem typeOfCode_index {i : Nat} {e : Composite Ty} (h : t.entries[i]? = some e) :
    t.typeOfCode i = .ok (.composite e) := by
  have hi : ¬ (i : Int) < 0 := by omega
  simp [typeOfCode, hi, h]

/-- A code that stands for a type is the opcode of a primitive or the index of an entry. -/
theorem typeOfCode_eq_ok {code : Int} {head : Head} (h : t.typeOfCode code = .ok head) :
    (∃ p, Prim.ofOpcode? code = some p ∧ code < 0 ∧ head = .prim p) ∨
      ∃ (i : Nat) (e : Composite Ty), code = i ∧ t.entries[i]? = some e ∧ head = .composite e := by
  unfold typeOfCode at h
  split at h
  · rename_i hneg
    split at h
    · rename_i p hp
      cases h
      exact .inl ⟨p, hp, hneg, rfl⟩
    · cases h
  · rename_i hpos
    split at h
    · rename_i e he
      cases h
      exact .inr ⟨code.toNat, e, by omega, he, rfl⟩
    · cases h

/-- The code of a type stands for the type that it looks through to, up to names of fields. -/
theorem codeOf_stands (hs : t.Sound) {type : Ty} {code : Int} (h : t.codeOf type = .ok code) :
    ∃ head head', t.follow type = .ok head ∧ t.typeOfCode code = .ok head' ∧
      head.type.same head'.type = true := by
  cases type with
  | prim p =>
    cases h
    exact ⟨.prim p, .prim p, rfl, typeOfCode_opcode p, Ty.same_refl _⟩
  | named x =>
    simp only [codeOf] at h
    split at h
    · rename_i code' hcode
      cases h
      obtain ⟨head, hhead⟩ := hs x code hcode
      refine ⟨head, head, ?_, hhead, Ty.same_refl _⟩
      simp [follow, Table.resolve, hcode, hhead]
    · cases h
  | composite c =>
    simp only [codeOf] at h
    split at h
    · rename_i i hi
      cases h
      obtain ⟨e, he, hsame⟩ := indexOf?_eq_some hi
      exact ⟨.composite c, .composite e, rfl, typeOfCode_index he, Ty.same_symm hsame⟩
    · cases h

theorem indexOf?_congr {c d : Composite Ty} (h : (Ty.composite c).same (.composite d) = true) :
    t.indexOf? c = t.indexOf? d := by
  unfold indexOf?
  congr 1
  funext e
  refine Bool.eq_iff_iff.mpr ⟨fun he => Ty.same_trans he h, fun he => ?_⟩
  exact Ty.same_trans he (Ty.same_symm h)

/-- Types that differ in names of fields alone have one code. -/
theorem codeOf_congr {u v : Ty} (h : u.same v = true) {code : Int} (hu : t.codeOf u = .ok code) :
    t.codeOf v = .ok code := by
  cases u <;> cases v <;> simp only [Ty.same, beq_iff_eq, Bool.false_eq_true] at h
  · rw [← h]
    exact hu
  · rw [← h]
    exact hu
  · rename_i c d
    have hcd : (Ty.composite c).same (.composite d) = true := by rw [Ty.same]; exact h
    simp only [codeOf, indexOf?_congr hcd] at hu ⊢
    split at hu
    · rename_i i hi
      simpa only [hi] using hu
    · cases hu

end Codes

/-- All that a table holds, another one holds under the same codes and names. -/
structure Extends (t u : Table) : Prop where
  entries : ∀ (i : Nat) (e : Composite Ty), t.entries[i]? = some e → u.entries[i]? = some e
  labels : ∀ x code, t.labelCode? x = some code → u.labelCode? x = some code

namespace Extends
variable {t u v : Table}

theorem refl (t : Table) : t.Extends t := ⟨fun _ _ h => h, fun _ _ h => h⟩

theorem trans (h : t.Extends u) (k : u.Extends v) : t.Extends v :=
  ⟨fun i e he => k.entries i e (h.entries i e he), fun x code hx => k.labels x code (h.labels x code hx)⟩

theorem typeOfCode (h : t.Extends u) {code : Int} {head : Head}
    (hc : t.typeOfCode code = .ok head) : u.typeOfCode code = .ok head := by
  rcases typeOfCode_eq_ok hc with ⟨p, hp, hneg, rfl⟩ | ⟨i, e, rfl, he, rfl⟩
  · simp [Table.typeOfCode, hneg, hp]
  · exact typeOfCode_index (h.entries i e he)

end Extends

end Didl.Table
