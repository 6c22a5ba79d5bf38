import Didl.Proofs.Compiling
import Didl.Proofs.Environments

namespace Didl.Idl
open Table

namespace Scope
variable {p q : Scope} {x z : String} {e : TypeExpr}

theorem checkNames_eq_ok (scope : Scope) (seen : List String) : scope.checkNames seen = .ok () ↔
    (∀ d ∈ scope, Keyword.isReserved d.name = false ∧ d.name ∉ seen) ∧
      (scope.map Definition.name).Nodup := by
  induction scope generalizing seen with
  | nil => simp [checkNames]
  | cons d scope ih =>
    rw [checkNames, List.forall_mem_cons, List.map_cons, List.nodup_cons]
    split
    · rename_i hreserved
      simp [hreserved]
    · split
      · rename_i hseen
        simp [List.contains_iff_mem.mp hseen]
      · rename_i hreserved hseen
        rw [ih]
        simp only [List.mem_cons, not_or]
        have hd : Keyword.isReserved d.name = false ∧ d.name ∉ seen :=
          ⟨by simpa using hreserved, by simpa using hseen⟩
        constructor
        · rintro ⟨hall, hnodup⟩
          refine ⟨⟨hd, fun d' hd' => ⟨(hall d' hd').1, (hall d' hd').2.2⟩⟩, fun hmem => ?_, hnodup⟩
          obtain ⟨d', hd', heq⟩ := List.mem_map.mp hmem
          exact (hall d' hd').2.1 heq
        · rintro ⟨⟨_, hall⟩, hnot, hnodup⟩
          refine ⟨fun d' hd' => ⟨(hall d' hd').1, fun heq => hnot ?_, (hall d' hd').2⟩, hnodup⟩
          exact heq ▸ List.mem_map_of_mem hd'

theorem body?_eq_some (hnodup : (p.map Definition.name).Nodup) :
    p.body? x = some e ↔ ∃ d ∈ p, d.name = x ∧ d.type = e := by
  constructor
  · intro h
    obtain ⟨d, hd, rfl⟩ := Option.map_eq_some_iff.mp h
    exact ⟨d, List.mem_of_find?_eq_some hd, by simpa using List.find?_some hd, rfl⟩
  · rintro ⟨d, hd, rfl, rfl⟩
    obtain ⟨d', hd'⟩ : ∃ d', p.find? (·.name == d.name) = some d' :=
      Option.isSome_iff_exists.mp (List.find?_isSome.mpr ⟨d, hd, beq_self_eq_true d.name⟩)
    have hname : d'.name = d.name := by simpa using List.find?_some hd'
    have heq : d' = d := List.inj_on_of_nodup_map hnodup (List.mem_of_find?_eq_some hd') hd hname
    rw [body?, hd', heq]
    rfl

theorem isDefined_of_mem_names (h : x ∈ p.map Definition.name) : p.isDefined x = true := by
  obtain ⟨d, hd, rfl⟩ := List.mem_map.mp h
  have hfind : (p.find? (·.name == d.name)).isSome = true :=
    List.find?_isSome.mpr ⟨d, hd, beq_self_eq_true d.name⟩
  rwa [isDefined, body?, Option.isSome_map]

/-- A scope with the definitions of another one and perhaps more has what that one has. -/
theorem within_of_subset (hsub : p ⊆ q) (hnodup : (q.map Definition.name).Nodup) : Within p q := by
  intro x e hx
  obtain ⟨d, hd, rfl⟩ := Option.map_eq_some_iff.mp hx
  exact (body?_eq_some hnodup).mpr
    ⟨d, hsub (List.mem_of_find?_eq_some hd), by simpa using List.find?_some hd, rfl⟩

section Congr
variable (hbody : ∀ x, p.body? x = q.body? x) (hlength : p.length = q.length)
include hbody

theorem isDefined_congr : p.isDefined x = q.isDefined x := by
  rw [isDefined, hbody]
  rfl

theorem holds_congr : p.Holds = q.Holds := by
  unfold Holds
  simp only [hbody]

include hlength

theorem canonical_congr (x : String) : p.canonical x = q.canonical x := by
  have hlook : ∀ (n : Nat) (x : String), p.lookThrough x n = q.lookThrough x n := by
    intro n
    induction n with
    | zero => exact fun _ => rfl
    | succ n ih =>
      intro x
      rw [lookThrough, lookThrough, hbody]
      simp only [ih]
  rw [canonical, canonical, hlook, hlength]

theorem isFunction_congr (x : String) : p.isFunction x = q.isFunction x := by
  rw [isFunction, isFunction, canonical_congr hbody hlength]

theorem isService_congr (x : String) : p.isService x = q.isService x := by
  rw [isService, isService, canonical_congr hbody hlength]

theorem checkExpr_congr : p.checkExpr = q.checkExpr := by
  have hdefined : p.checkDefined = q.checkDefined := by
    funext x position
    rw [checkDefined, checkDefined, isDefined_congr hbody]
  have hslots : ∀ (seen : List UInt32) (slots : List (Slot TypeExpr)),
      p.checkSlots seen slots = q.checkSlots seen slots := by
    intro seen slots
    induction slots generalizing seen with
    | nil => rfl
    | cons slot slots ih => rw [checkSlots, checkSlots, hdefined, ih]
  have hmethods : ∀ (seen : List String) (methods : List (MethodExpr TypeExpr)),
      p.checkMethods seen methods = q.checkMethods seen methods := by
    intro seen methods
    induction methods generalizing seen with
    | nil => rfl
    | cons method methods ih =>
      rw [checkMethods, checkMethods, ih]
      simp only [isFunction_congr hbody hlength]
  have hform : p.checkForm = q.checkForm := by
    funext f
    cases f <;> simp only [checkForm, hslots, hmethods]
  unfold checkExpr
  rw [hdefined, hform]

theorem checkActor_congr : p.checkActor = q.checkActor := by
  funext actor
  unfold checkActor
  simp only [checkExpr_congr hbody hlength, isService_congr hbody hlength]

theorem typeOf_congr : p.typeOf = q.typeOf := by
  have hname : p.typeOfName = q.typeOfName := by
    funext x
    rw [typeOfName, typeOfName, canonical_congr hbody hlength]
  have hform : @typedForm TypeExpr p = typedForm q := by
    funext f
    cases f <;> simp only [typedForm, typedFields, hname]
  unfold typeOf
  rw [hname, hform]

end Congr

theorem body?_perm (hnodup : (p.map Definition.name).Nodup) (hperm : p.Perm q) (x : String) :
    p.body? x = q.body? x := by
  have hnodup' := (hperm.map Definition.name).nodup_iff.mp hnodup
  refine Option.ext fun e => ⟨within_of_subset hperm.subset hnodup' x e, ?_⟩
  exact within_of_subset hperm.symm.subset hnodup x e

/-- Definitions may stand in any order. -/
theorem Accepted.perm (h : p.Accepted) (hperm : p.Perm q) : q.Accepted := by
  obtain ⟨hunreserved, hnodup⟩ := (checkNames_eq_ok p []).mp h.names
  have hbody := body?_perm hnodup hperm
  refine ⟨(checkNames_eq_ok q []).mpr ⟨fun d hd => ?_, ?_⟩, checkRecursion_eq_ok.mpr ?_, ?_⟩
  · exact hunreserved d (hperm.mem_iff.mpr hd)
  · exact (hperm.map Definition.name).nodup_iff.mp hnodup
  · rw [← holds_congr hbody]
    simpa only [hbody] using checkRecursion_eq_ok.mp h.recursion
  · intro d hd
    rw [← checkExpr_congr hbody hperm.length_eq]
    exact h.exprs d (hperm.mem_iff.mpr hd)

/-- What an expression denotes it denotes wherever there are the definitions and perhaps more. -/
theorem typeOf_mono (hwithin : Within p q) (hp : p.Accepted) (hq : q.Accepted) {type : Ty}
    (h : p.typeOf e = .ok type) : q.typeOf e = .ok type := by
  induction e using TypeExpr.induct generalizing type with
  | name x _ =>
    obtain ⟨⟨z, e⟩, hcanonical, h⟩ := except_bind_eq_ok.mp h
    have hstands := (hp.canonical.mp hcanonical).mono hwithin
    exact except_bind_ok (hq.canonical.mpr hstands) h
  | primitive | blob => exact h
  | form f ih =>
    obtain ⟨d, c, hd, hc, rfl⟩ := typeOf_form.mp h
    exact typeOf_form.mpr ⟨d, c, hd, Composite.mapM_mono hc fun e he b hb => ih d hd e he hb, rfl⟩

theorem typeOf_ne_named (hnot : ∀ y p, e ≠ .name y p) : p.typeOf e ≠ .ok (.named x) := by
  intro h
  cases e with
  | name y position => exact hnot y position rfl
  | primitive keyword =>
    obtain ⟨_, heq⟩ := primitiveOf_eq_ok h
    cases heq
  | blob => cases h
  | form f =>
    obtain ⟨_, _, _, _, heq⟩ := typeOf_form.mp h
    cases heq

/-- The names in what an expression denotes are those of definitions. -/
theorem defines_of_mem_names {type : Ty} (h : p.typeOf e = .ok type) (hx : x ∈ type.names) :
    ∃ e', p.Defines x e' := by
  induction e using TypeExpr.induct generalizing type with
  | name y _ =>
    rcases typeOfName_eq_ok h with ⟨_, rfl⟩ | ⟨z, e', _, hdefines, rfl⟩
    · cases hx
    · obtain rfl := List.mem_singleton.mp hx
      exact ⟨e', hdefines⟩
  | primitive keyword =>
    obtain ⟨_, rfl⟩ := primitiveOf_eq_ok h
    cases hx
  | blob =>
    cases h
    cases hx
  | form f ih =>
    obtain ⟨d, c, hd, hc, rfl⟩ := typeOf_form.mp h
    rw [Ty.names_composite] at hx
    obtain ⟨m, hm, hx⟩ := List.mem_flatMap.mp hx
    obtain ⟨e, he, htype⟩ := exists_of_mem_right (Composite.rel_of_mapM hc).members
      (Composite.mem_members_canonical.mp hm)
    exact ih d hd e he htype hx

end Scope

namespace Compiled
variable {P : Ty → Prop} {definitions : List (String × Ty)} {t : Table} {scope : Scope}

/-- A name is bound to what the definition that it stands for denotes, up to names of fields. -/
theorem resolve (h : Compiled P definitions t) (htyped : scope.Typed definitions)
    (hbound : ∀ p ∈ definitions, t.isBound p.1 = true) (haccepted : scope.Accepted)
    {x z : String} {e : TypeExpr} (hx : scope.StandsFor x z e) :
    ∃ type head, scope.typeOf e = .ok type ∧ t.resolve x = .ok head ∧ type.Same head.type := by
  have hnodup := Scope.names_nodup haccepted.names
  have hhead : ∀ {e type type'}, (∀ y p, e ≠ .name y p) → scope.typeOf e = .ok type →
      type.same type' = true → ∃ head, t.follow type' = .ok head ∧ type.Same head.type := by
    intro e type type' hnot htype hsame
    cases type' with
    | prim p => exact ⟨.prim p, rfl, hsame⟩
    | composite d => exact ⟨.composite d, rfl, hsame⟩
    | named y =>
      cases type with
      | prim | composite => simp [Ty.same] at hsame
      | named => exact absurd htype (Scope.typeOf_ne_named hnot)
  -- A definition that is no alias is bound to what it denotes itself.
  have hself : ∀ {z e}, scope.body? z = some e → (∀ y p, e ≠ .name y p) →
      ∃ type head, scope.typeOf e = .ok type ∧ t.resolve z = .ok head ∧ type.Same head.type := by
    intro z e hz hnot
    obtain ⟨type, hmem, htype⟩ := htyped.lookup hz
    obtain ⟨type', hsame, hfollow⟩ := h.named htyped hbound hnodup hmem
    obtain ⟨head, htype', hsame⟩ := hhead hnot htype hsame
    exact ⟨type, head, htype, hfollow.trans htype', hsame⟩
  cases hx with
  | self hbody hnot => exact hself hbody hnot
  | @through _ y _ p _ hbody hx =>
    obtain ⟨hz, hnot⟩ := hx.body
    obtain ⟨type, hmem, htype⟩ := htyped.lookup hbody
    obtain ⟨type', hsame, hfollow⟩ := h.named htyped hbound hnodup hmem
    rcases haccepted.typeOfName hx htype with htype | ⟨_, rfl⟩
    · obtain ⟨head, htype', hsame⟩ := hhead hnot htype hsame
      exact ⟨type, head, htype, hfollow.trans htype', hsame⟩
    · cases type' with
      | prim | composite => simp [Ty.same] at hsame
      | named w =>
        obtain rfl : z = w := by simpa [Ty.same] using hsame
        obtain ⟨type, head, htype, hz, hsame⟩ := hself hz hnot
        exact ⟨type, head, htype, hfollow.trans hz, hsame⟩

end Compiled

namespace Program
variable {p q : Program} {i j : Interface}

/-- The tables of a program and of one that has its definitions and more agree on its names. -/
theorem agreesOn_of_within (hi : p.interface = .ok i) (hj : q.interface = .ok j)
    (hwithin : Scope.Within p.definitions q.definitions) :
    AgreesOn (· ∈ p.definitions.map Definition.name) i.table j.table := by
  obtain ⟨hcheck, _, htyped, _⟩ := interface_eq_ok.mp hi
  obtain ⟨hcheck', _, htyped', _⟩ := interface_eq_ok.mp hj
  obtain ⟨haccepted, _⟩ := check_eq_ok.mp hcheck
  obtain ⟨haccepted', _⟩ := check_eq_ok.mp hcheck'
  obtain ⟨hcompiled, hbound⟩ :=
    interface_compiled (P := fun _ => True) hi (fun _ _ => trivial) fun _ _ => trivial
  obtain ⟨hcompiled', hbound'⟩ :=
    interface_compiled (P := fun _ => True) hj (fun _ _ => trivial) fun _ _ => trivial
  intro x hx
  obtain ⟨z, e, hstands⟩ := haccepted.standsFor (Scope.isDefined_of_mem_names hx)
  obtain ⟨type, head, htype, hhead, hsame⟩ := hcompiled.resolve htyped hbound haccepted hstands
  obtain ⟨type', head', htype', hhead', hsame'⟩ :=
    hcompiled'.resolve htyped' hbound' haccepted' (hstands.mono hwithin)
  obtain rfl : type = type' :=
    Except.ok.inj ((Scope.typeOf_mono hwithin haccepted haccepted' htype).symm.trans htype')
  refine ⟨head, head', hhead, hhead', Ty.same_trans (Ty.same_symm hsame) hsame', fun y hy => ?_⟩
  rw [← Ty.names_of_same hsame] at hy
  obtain ⟨_, hdefines⟩ := Scope.defines_of_mem_names htype hy
  exact Scope.mem_names_of_body? hdefines.1

/-- A program stays one that compiles when its definitions are rearranged. -/
theorem interface_perm (h : p.interface = .ok i) {definitions : List Definition}
    (hperm : definitions.Perm p.definitions) :
    ∃ j, interface { p with definitions } = .ok j := by
  obtain ⟨hcheck, _, htyped, hservice, _⟩ := interface_eq_ok.mp h
  obtain ⟨haccepted, hactor⟩ := check_eq_ok.mp hcheck
  have hbody := Scope.body?_perm (Scope.names_nodup haccepted.names) hperm.symm
  have hlength := hperm.symm.length_eq
  obtain ⟨types, htypes⟩ : ∃ types, Scope.Typed definitions types := by
    refine exists_forall₂ fun d hd => ?_
    obtain ⟨type, _, hname, htype⟩ := exists_of_mem_right htyped.flip (hperm.mem_iff.mp hd)
    exact ⟨type, hname, Scope.typeOf_congr hbody hlength ▸ htype⟩
  have hservices : serviceType definitions = serviceType p.definitions := by
    funext actor
    rw [serviceType, serviceType, Scope.typeOf_congr hbody hlength]
  rw [← hservices] at hservice
  rw [Scope.checkActor_congr hbody hlength] at hactor
  exact interface_returns (check_eq_ok.mpr ⟨haccepted.perm hperm.symm, hactor⟩) htypes hservice

/-- What a program means does not hang on the order of its definitions, nor on definitions that
stand beside them: rearranged it compiles, and where it compiles together with others, values of
types that mention its names alone are encoded to the same bytes, or refused with faults that are
equal but for the texts of types. -/
theorem interface_independent (h : p.interface = .ok i) :
    (∀ definitions : List Definition, definitions.Perm p.definitions →
      ∃ j, interface { p with definitions } = .ok j) ∧
    ∀ (q : Program) (more : List Definition) (j : Interface),
      q.definitions.Perm (p.definitions ++ more) → q.interface = .ok j →
      ∀ (types : List Ty) (values : List Value),
        (∀ type ∈ types, ∀ x ∈ type.names, x ∈ p.definitions.map Definition.name) →
        (Message.encode i.table types values).mapError Fault.kind =
          (Message.encode j.table types values).mapError Fault.kind := by
  refine ⟨fun definitions hperm => interface_perm h hperm, fun q more j hperm hj types values htypes => ?_⟩
  obtain ⟨hcheck, _⟩ := interface_eq_ok.mp hj
  obtain ⟨haccepted, _⟩ := check_eq_ok.mp hcheck
  have hsub : p.definitions ⊆ q.definitions :=
    fun d hd => hperm.mem_iff.mpr (List.mem_append_left more hd)
  have hwithin := Scope.within_of_subset hsub (Scope.names_nodup haccepted.names)
  exact (Message.encode_concur (agreesOn_of_within h hj hwithin) htypes values).mapError_eq

end Program

def nodeProgram : Program :=
  let p : Position := ⟨1, 1⟩
  ⟨[], [⟨"Node", p, .form (.record [⟨some (.name "key"), some (.name "Key" p), p⟩,
      ⟨some (.name "next"), some (.form (.opt (.name "Node" p))), p⟩])⟩,
    ⟨"Key", p, .primitive "nat"⟩], none⟩

def nodeTwin : Definition :=
  let p : Position := ⟨1, 1⟩
  ⟨"Twin", p, .form (.record [⟨some (.name "key"), some (.primitive "nat"), p⟩,
    ⟨some (.name "next"), some (.form (.opt (.name "Node" p))), p⟩])⟩

theorem interface_independent_node : ∃ i j, nodeProgram.interface = .ok i ∧
    Program.interface ⟨[], (nodeProgram.definitions ++ [nodeTwin]).reverse, none⟩ = .ok j ∧
    (∃ k, Program.interface { nodeProgram with definitions := nodeProgram.definitions.reverse } =
      .ok k) ∧
    ∀ values, (Message.encode i.table [.named "Node"] values).mapError Fault.kind =
      (Message.encode j.table [.named "Node"] values).mapError Fault.kind := by
  have hok : nodeProgram.interface.isOk = true := by cbv
  have hok' : (Program.interface
    ⟨[], (nodeProgram.definitions ++ [nodeTwin]).reverse, none⟩).isOk = true := by cbv
  cases hi : nodeProgram.interface with
  | error e =>
    rw [hi] at hok
    cases hok
  | ok i =>
    cases hj : Program.interface ⟨[], (nodeProgram.definitions ++ [nodeTwin]).reverse, none⟩ with
    | error e =>
      rw [hj] at hok'
      cases hok'
    | ok j =>
      obtain ⟨hperm, hmore⟩ := Program.interface_independent hi
      refine ⟨i, j, rfl, rfl, hperm _ (List.reverse_perm _), fun values => ?_⟩
      refine hmore _ [nodeTwin] j (List.reverse_perm _) hj [.named "Node"] values ?_
      simp [Ty.names, Ty.fold, nodeProgram]

end Didl.Idl
