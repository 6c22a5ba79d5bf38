import Didl.Proofs.Growing
import Didl.Proofs.Meaning

namespace Didl.Idl

open Relation

/-- An expression stands in another one outside every option, vector, variant and reference: it is
the whole of it, or it stands in a field of a record. -/
inductive TypeExpr.Exposed (e' : TypeExpr) : TypeExpr → Prop
  | self : Exposed e' e'
  | field {fields : List (FieldExpr TypeExpr)} {f : FieldExpr TypeExpr} {e : TypeExpr} :
      f ∈ fields → f.type = some e → Exposed e' e → Exposed e' (.form (.record fields))

/-- The fields of every record that is exposed can be laid out. -/
def TypeExpr.LaidOut (e : TypeExpr) : Prop :=
  ∀ fields, (TypeExpr.form (.record fields)).Exposed e →
    ∃ slots, Layout.slots false fields = .ok slots

/-- A name is exposed, or a record that is exposed lists it alone. -/
def TypeExpr.Nests (e : TypeExpr) (y : String) : Prop :=
  (∃ p, (TypeExpr.name y p).Exposed e) ∨
    ∃ fields, (TypeExpr.form (.record fields)).Exposed e ∧
      ∃ f ∈ fields, f.label = some (.name y) ∧ f.type = none

namespace TypeExpr
variable {e e' : TypeExpr} {y : String}

theorem exposed_record {fields : List (FieldExpr TypeExpr)} :
    e'.Exposed (.form (.record fields)) ↔
      e' = .form (.record fields) ∨ ∃ f ∈ fields, ∃ e, f.type = some e ∧ e'.Exposed e := by
  constructor
  · intro h
    cases h with
    | self => exact .inl rfl
    | field hf he h => exact .inr ⟨_, hf, _, he, h⟩
  · rintro (rfl | ⟨f, hf, e, he, h⟩)
    · exact .self
    · exact .field hf he h

/-- Nothing but the whole is exposed where the whole is no record. -/
theorem exposed_other (hnot : ∀ fields, e ≠ .form (.record fields)) : e'.Exposed e ↔ e' = e := by
  constructor
  · intro h
    cases h with
    | self => rfl
    | field => exact absurd rfl (hnot _)
  · rintro rfl
    exact .self

theorem LaidOut.field {fields : List (FieldExpr TypeExpr)} (h : LaidOut (.form (.record fields)))
    {f : FieldExpr TypeExpr} (hf : f ∈ fields) (he : f.type = some e) : e.LaidOut :=
  fun _ hexposed => h _ (.field hf he hexposed)

theorem nests_name {p : Position} {x : String} : (TypeExpr.name x p).Nests y ↔ y = x := by
  unfold Nests
  simp only [exposed_other (e := .name x p) nofun]
  simp

theorem not_nests (hname : ∀ x p, e ≠ .name x p) (hrecord : ∀ fields, e ≠ .form (.record fields)) :
    ¬ e.Nests y := by
  unfold Nests
  simp only [exposed_other hrecord]
  rintro (⟨p, rfl⟩ | ⟨fields, rfl, _⟩)
  · exact hname y p rfl
  · exact hrecord fields rfl

theorem nests_record {fields : List (FieldExpr TypeExpr)} :
    (TypeExpr.form (.record fields)).Nests y ↔
      ∃ f ∈ fields, (∃ e, f.type = some e ∧ e.Nests y) ∨ f.label = some (.name y) ∧ f.type = none := by
  constructor
  · rintro (⟨p, h⟩ | ⟨inner, h, g, hg, hshort⟩)
    · obtain h | ⟨f, hf, e, he, h⟩ := exposed_record.mp h
      · cases h
      · exact ⟨f, hf, .inl ⟨e, he, .inl ⟨p, h⟩⟩⟩
    · obtain h | ⟨f, hf, e, he, h⟩ := exposed_record.mp h
      · cases h
        exact ⟨g, hg, .inr hshort⟩
      · exact ⟨f, hf, .inl ⟨e, he, .inr ⟨inner, h, g, hg, hshort⟩⟩⟩
  · rintro ⟨f, hf, ⟨e, he, ⟨p, h⟩ | ⟨inner, h, hshort⟩⟩ | hshort⟩
    · exact .inl ⟨p, .field hf he h⟩
    · exact .inr ⟨inner, .field hf he h, hshort⟩
    · exact .inr ⟨fields, .self, f, hf, hshort⟩

/-- What a field of a record declares is its type, or the name that it lists alone. -/
theorem nests_of_declares {index : Nat} {f : FieldExpr TypeExpr} {row : Field TypeExpr}
    (h : Declares false index f row) : row.type.Nests y ↔
      (∃ e, f.type = some e ∧ e.Nests y) ∨ f.label = some (.name y) ∧ f.type = none := by
  cases h with
  | labelled => simp
  | unlabelled => simp
  | typeAlone => simp [nests_name, eq_comm]
  | labelAlone hvariant => cases hvariant

theorem laidOut_of_declares {index : Nat} {f : FieldExpr TypeExpr} {row : Field TypeExpr}
    (h : Declares false index f row) (hfield : ∀ e, f.type = some e → e.LaidOut) :
    row.type.LaidOut := by
  cases h with
  | labelled => exact hfield _ rfl
  | unlabelled => exact hfield _ rfl
  | typeAlone =>
    intro fields hexposed
    cases hexposed
  | labelAlone hvariant => cases hvariant

theorem nests_of_declareAll {fields : List (FieldExpr TypeExpr)} {rows : List (Field TypeExpr)}
    (h : DeclareAll false fields rows) :
    (TypeExpr.form (.record fields)).Nests y ↔ ∃ row ∈ rows, row.type.Nests y := by
  rw [nests_record]
  constructor
  · rintro ⟨f, hf, hnests⟩
    rw [← List.zipIdx_map_fst 0 fields] at hf
    obtain ⟨x, hx, rfl⟩ := List.mem_map.mp hf
    obtain ⟨row, hrow, hdeclares⟩ := exists_of_mem_right h.flip hx
    exact ⟨row, hrow, (nests_of_declares hdeclares).mpr hnests⟩
  · rintro ⟨row, hrow, hnests⟩
    obtain ⟨x, hx, hdeclares⟩ := exists_of_mem_right h hrow
    exact ⟨x.1, List.fst_mem_of_mem_zipIdx hx, (nests_of_declares hdeclares).mp hnests⟩

/-- Where the records that are exposed can be laid out, it can be told what an expression holds: the
names that it nests. -/
theorem heldNames_of_laidOut (h : e.LaidOut) :
    ∃ held, e.heldNames = .ok held ∧ ∀ y, y ∈ held ↔ e.Nests y := by
  induction e using TypeExpr.induct with
  | name x position => exact ⟨[x], rfl, fun y => by rw [nests_name, List.mem_singleton]⟩
  | primitive | blob => exact ⟨[], rfl, fun y => by simp [not_nests]⟩
  | form f ih =>
    cases f with
    | opt | vec | variant | func | service =>
      refine ⟨[], ?_, fun y => by simp [not_nests]⟩
      rw [TypeExpr.heldNames, TypeExpr.fold_form]
      rfl
    | record fields =>
      obtain ⟨slots, hslots⟩ := h fields .self
      have hlayout : (Form.record fields).layout = .ok (.record (slots.map Slot.field)) :=
        except_bind_ok hslots rfl
      have hrows : DeclareAll false fields (slots.map Slot.field) := declareAll_of_slots hslots
      have hheld : ∀ s ∈ slots, ∃ held, s.expr.heldNames = .ok held ∧
          ∀ y, y ∈ held ↔ s.expr.Nests y := by
        intro s hs
        obtain ⟨x, hx, hdeclares⟩ := exists_of_mem_right hrows (List.mem_map_of_mem hs)
        have hmem : s.expr ∈ (Composite.record (slots.map Slot.field)).members := by
          rw [Composite.members, List.map_map]
          exact List.mem_map_of_mem (f := fun s => s.expr) hs
        exact ih _ hlayout _ hmem (laidOut_of_declares hdeclares fun e he =>
          h.field (List.fst_mem_of_mem_zipIdx hx) he)
      obtain ⟨lists, hlists⟩ := exists_forall₂ hheld
      refine ⟨lists.flatten, ?_, fun y => ?_⟩
      · rw [Scope.heldNames_record]
        exact except_bind_ok hslots (except_bind_ok
          (except_mapM_eq_ok.mpr (hlists.imp fun _ _ h => h.1)) rfl)
      · rw [nests_of_declareAll hrows, List.mem_flatten]
        constructor
        · rintro ⟨held, hheld, hy⟩
          obtain ⟨s, hs, _, hnests⟩ := exists_of_mem_right hlists hheld
          exact ⟨s.field, List.mem_map_of_mem hs, (hnests y).mp hy⟩
        · rintro ⟨row, hrow, hy⟩
          obtain ⟨s, hs, rfl⟩ := List.mem_map.mp hrow
          obtain ⟨held, hheld, _, hnests⟩ := exists_of_mem_right hlists.flip hs
          exact ⟨held, hheld, (hnests y).mpr hy⟩

end TypeExpr

namespace Scope
variable {scope : Scope} {x y z : String}

/-- The definition of a name nests another name that is defined. -/
def Nests (scope : Scope) (x y : String) : Prop :=
  ∃ d ∈ scope, d.name = x ∧ d.type.Nests y ∧ y ∈ scope.map Definition.name

section Exact
variable (hnodup : (scope.map Definition.name).Nodup) (hlaid : ∀ d ∈ scope, d.type.LaidOut)
include hnodup hlaid

theorem heldNames_told {e : TypeExpr} (hx : scope.body? x = some e) :
    ∃ held, e.heldNames = .ok held ∧ ∀ y, y ∈ held ↔ e.Nests y := by
  obtain ⟨d, hd, _, rfl⟩ := (body?_eq_some hnodup).mp hx
  exact TypeExpr.heldNames_of_laidOut (hlaid d hd)

theorem holds_iff : scope.Holds x y ↔ ∃ d ∈ scope, d.name = x ∧ d.type.Nests y := by
  constructor
  · rintro ⟨e, held, he, hheld, hy⟩
    obtain ⟨held', hheld', hnests⟩ := heldNames_told hnodup hlaid he
    cases hheld.symm.trans hheld'
    obtain ⟨d, hd, hname, rfl⟩ := (body?_eq_some hnodup).mp he
    exact ⟨d, hd, hname, (hnests y).mp hy⟩
  · rintro ⟨d, hd, hname, hnest⟩
    have he := (body?_eq_some hnodup).mpr ⟨d, hd, hname, rfl⟩
    obtain ⟨held, hheld, hnests⟩ := heldNames_told hnodup hlaid he
    exact ⟨d.type, held, he, hheld, (hnests y).mpr hnest⟩

/-- Names that are not defined lead nowhere, so they take no part in a circle. -/
theorem circle_iff : TransGen scope.Holds x x ↔ TransGen scope.Nests x x := by
  have hdefined : ∀ {y z}, TransGen scope.Holds y z → y ∈ scope.map Definition.name := by
    intro y z h
    obtain ⟨w, ⟨e, _, he, _⟩, _⟩ := TransGen.head'_iff.mp h
    exact mem_names_of_body? he
  have hpath : ∀ {y z}, TransGen scope.Holds y z → z ∈ scope.map Definition.name →
      TransGen scope.Nests y z := by
    intro y z h hz
    induction h using TransGen.head_induction_on with
    | single h =>
      obtain ⟨d, hd, hname, hnests⟩ := (holds_iff hnodup hlaid).mp h
      exact .single ⟨d, hd, hname, hnests, hz⟩
    | head h hrest ih =>
      obtain ⟨d, hd, hname, hnests⟩ := (holds_iff hnodup hlaid).mp h
      exact .head ⟨d, hd, hname, hnests, hdefined hrest⟩ ih
  constructor
  · exact fun h => hpath h (hdefined h)
  · have hstep : ∀ y z, scope.Nests y z → scope.Holds y z := fun y z ⟨d, hd, hname, hnests, _⟩ =>
      (holds_iff hnodup hlaid).mpr ⟨d, hd, hname, hnests⟩
    exact fun h => TransGen.mono hstep x x h

/-- A scope is accepted exactly if no circle is in it. -/
theorem checkRecursion_eq_ok_iff :
    scope.checkRecursion = .ok () ↔ ¬ ∃ x, TransGen scope.Nests x x := by
  rw [checkRecursion_eq_ok, not_exists]
  simp only [circle_iff hnodup hlaid]
  refine and_iff_right fun x e hx => ?_
  obtain ⟨held, hheld, _⟩ := heldNames_told hnodup hlaid hx
  exact ⟨held, hheld⟩

/-- Otherwise a name in a circle is reported. -/
theorem circle_of_error {cause : CompileFault} (h : scope.checkRecursion = .error cause) :
    ∃ x, cause = .recursiveNesting x ∧ TransGen scope.Nests x x := by
  have htold : ∀ x e, scope.body? x = some e → ∃ held, e.heldNames = .ok held := by
    intro x e hx
    obtain ⟨held, hheld, _⟩ := heldNames_told hnodup hlaid hx
    exact ⟨held, hheld⟩
  obtain ⟨x, hcause, hcircle⟩ := circle_of_checkRecursion htold h
  exact ⟨x, hcause, (circle_iff hnodup hlaid).mp hcircle⟩

end Exact

/-- Definitions in another order nest the same names. -/
theorem nests_perm {other : Scope} (hperm : other.Perm scope) : other.Nests = scope.Nests := by
  funext x y
  unfold Nests
  simp only [hperm.mem_iff, (hperm.map Definition.name).mem_iff]

/-- The search for recursive definitions is exact. It reports a scope exactly if a circle of defined
names is in it, names one of these and accepts the scope otherwise, in whatever order the definitions
stand. In a scope that it accepts every chain of aliases ends at a definition that is no alias or at a
name that is not defined, and this is where it is looked through to. -/
theorem checkRecursion_exact (hnodup : (scope.map Definition.name).Nodup)
    (hlaid : ∀ d ∈ scope, d.type.LaidOut) :
    ((∃ x, scope.checkRecursion = .error (.recursiveNesting x)) ↔ ∃ x, TransGen scope.Nests x x) ∧
    (∀ x, scope.checkRecursion = .error (.recursiveNesting x) → TransGen scope.Nests x x) ∧
    (scope.checkRecursion = .ok () ↔ ¬ ∃ x, TransGen scope.Nests x x) ∧
    (∀ other : Scope, other.Perm scope →
      (other.checkRecursion = .ok () ↔ scope.checkRecursion = .ok ())) ∧
    (scope.checkRecursion = .ok () → ∀ x, scope.Ends x (scope.canonical x)) := by
  have haccepts := checkRecursion_eq_ok_iff hnodup hlaid
  have hnames : ∀ x, scope.checkRecursion = .error (.recursiveNesting x) →
      TransGen scope.Nests x x := by
    intro x hx
    obtain ⟨y, hcause, hcircle⟩ := circle_of_error hnodup hlaid hx
    cases hcause
    exact hcircle
  refine ⟨⟨fun ⟨x, hx⟩ => ⟨x, hnames x hx⟩, fun hcircle => ?_⟩, hnames, haccepts,
    fun other hperm => ?_, fun hok x => ?_⟩
  · cases hresult : scope.checkRecursion with
    | ok => exact absurd hcircle (haccepts.mp hresult)
    | error cause =>
      obtain ⟨x, rfl, _⟩ := circle_of_error hnodup hlaid hresult
      exact ⟨x, rfl⟩
  · have hother := checkRecursion_eq_ok_iff ((hperm.map Definition.name).nodup_iff.mpr hnodup)
      fun d hd => hlaid d (hperm.mem_iff.mp hd)
    rw [hother, haccepts, nests_perm hperm]
  · exact canonical_ends (checkRecursion_eq_ok.mp hok).2 x

/-- A definition that lists an alias of itself alone: both are in a circle, and the first one is
reported. -/
theorem checkRecursion_exact_ring :
    let scope : Scope := [⟨"A", ⟨1, 1⟩, .name "B" ⟨1, 10⟩⟩,
      ⟨"B", ⟨2, 1⟩, .form (.record [⟨some (.name "A"), none, ⟨2, 19⟩⟩])⟩]
    (scope.map Definition.name).Nodup ∧ (∀ d ∈ scope, d.type.LaidOut) ∧
      ∃ x, scope.checkRecursion = .error (.recursiveNesting x) := by
  intro scope
  have hnodup : (scope.map Definition.name).Nodup := by decide
  have hlaid : ∀ d ∈ scope, d.type.LaidOut := by
    refine List.forall_mem_cons.mpr ⟨?_, List.forall_mem_singleton.mpr ?_⟩
    · intro fields hexposed
      cases hexposed
    · intro fields hexposed
      obtain heq | ⟨f, hf, e, he, _⟩ := TypeExpr.exposed_record.mp hexposed
      · cases heq
        exact ⟨_, rfl⟩
      · rw [List.mem_singleton.mp hf] at he
        cases he
  have hfirst : scope.Nests "A" "B" :=
    ⟨_, List.mem_cons_self, rfl, TypeExpr.nests_name.mpr rfl, by decide⟩
  have hsecond : scope.Nests "B" "A" := by
    refine ⟨_, List.mem_cons_of_mem _ (List.mem_singleton_self _), rfl, ?_, by decide⟩
    exact TypeExpr.nests_record.mpr ⟨_, List.mem_singleton_self _, .inr ⟨rfl, rfl⟩⟩
  exact ⟨hnodup, hlaid, (checkRecursion_exact hnodup hlaid).1.mpr
    ⟨"A", .head hfirst (.single hsecond)⟩⟩

end Scope

end Didl.Idl
