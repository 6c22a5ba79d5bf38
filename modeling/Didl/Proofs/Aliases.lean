import Didl.Proofs.Denoting
import Didl.Proofs.Recursion

namespace Didl.Idl

open Relation

namespace Scope
variable {scope : Scope} {x y z : String} {e : TypeExpr}

theorem StandsFor.unique (h : scope.StandsFor x z e) {z' : String} {e' : TypeExpr}
    (k : scope.StandsFor x z' e') : z = z' ∧ e = e' := by
  induction h with
  | self hbody hnot =>
    cases k with
    | self hbody' _ => exact ⟨rfl, Option.some.inj (hbody.symm.trans hbody')⟩
    | through hbody' _ => exact absurd (Option.some.inj (hbody.symm.trans hbody')) (hnot _ _)
  | through hbody _ ih =>
    cases k with
    | self hbody' hnot => exact absurd (Option.some.inj (hbody'.symm.trans hbody)) (hnot _ _)
    | through hbody' k =>
      cases hbody.symm.trans hbody'
      exact ih k

/-- Names stand for the same in a scope that defines more. -/
theorem StandsFor.mono {other : Scope} (hwithin : Within scope other)
    (h : scope.StandsFor x z e) : other.StandsFor x z e := by
  induction h with
  | self hbody hnot => exact .self (hwithin _ _ hbody) hnot
  | through hbody _ ih => exact .through (hwithin _ _ hbody) ih

theorem holds_alias {p : Position} (h : scope.body? x = some (.name y p)) : scope.Holds x y :=
  ⟨.name y p, [y], h, rfl, List.mem_singleton_self y⟩

theorem mem_names_of_body? (h : scope.body? x = some e) : x ∈ scope.map Definition.name := by
  obtain ⟨d, hd, _⟩ := Option.map_eq_some_iff.mp h
  obtain rfl : d.name = x := by simpa using List.find?_some hd
  exact List.mem_map_of_mem (List.mem_of_find?_eq_some hd)

def Renames (scope : Scope) (x y : String) : Prop :=
  ∃ p, scope.body? x = some (.name y p)

theorem StandsFor.of_chain (h : scope.StandsFor x z e) (hchain : ReflTransGen scope.Renames x y) :
    scope.StandsFor y z e := by
  induction hchain with
  | refl => exact h
  | tail _ hstep ih =>
    obtain ⟨p, hp⟩ := hstep
    cases ih with
    | self hbody hnot => exact absurd (Option.some.inj (hbody.symm.trans hp)) (hnot _ _)
    | through hbody h =>
      cases hbody.symm.trans hp
      exact h

/-- The chain of aliases from a name ends, at a name that is not defined or at a definition that is no
alias, and the result tells where. -/
def Ends (scope : Scope) (x : String) (result : Except CompileFault (String × TypeExpr)) : Prop :=
  ∃ z, ReflTransGen scope.Renames x z ∧
    (scope.body? z = none ∧ result = .error (.undefined z) ∨
      ∃ e, scope.body? z = some e ∧ (∀ y p, e ≠ .name y p) ∧ result = .ok (z, e))

/-- The names that were looked through on the way to one that is met are different definitions, so
the fuel that is left is enough. -/
theorem lookThrough_ends (hacyclic : ∀ x, ¬ TransGen scope.Holds x x) {n : Nat}
    (behind : List String) (hnodup : behind.Nodup) (hnames : behind ⊆ scope.map Definition.name)
    (hmet : ∀ y ∈ behind, TransGen scope.Holds y x) (hn : scope.length < n + behind.length) :
    scope.Ends x (scope.lookThrough x n) := by
  induction n generalizing x behind with
  | zero =>
    have hlength := hnodup.length_le_of_subset hnames
    rw [List.length_map] at hlength
    omega
  | succ n ih =>
    rw [lookThrough]
    cases hx : scope.body? x with
    | none => exact ⟨x, .refl, .inl ⟨hx, rfl⟩⟩
    | some e =>
      cases e with
      | name y p =>
        have hstep := holds_alias hx
        obtain ⟨z, hchain, hend⟩ := ih (x := y) (x :: behind)
          (List.nodup_cons.mpr ⟨fun hmem => hacyclic x (hmet x hmem), hnodup⟩)
          (List.cons_subset.mpr ⟨mem_names_of_body? hx, hnames⟩)
          (List.forall_mem_cons.mpr ⟨.single hstep, fun w hw => (hmet w hw).tail hstep⟩)
          (by rw [List.length_cons]; omega)
        exact ⟨z, .head ⟨p, hx⟩ hchain, hend⟩
      | primitive | blob | form =>
        refine ⟨x, .refl, .inr ⟨_, hx, ?_, rfl⟩⟩
        rintro _ _ ⟨⟩

/-- Where no definition holds itself, every chain of aliases ends. -/
theorem canonical_ends (hacyclic : ∀ x, ¬ TransGen scope.Holds x x) (x : String) :
    scope.Ends x (scope.canonical x) :=
  lookThrough_ends hacyclic [] .nil nofun nofun (by simp)

/-- Looking through aliases finds exactly what a name stands for. -/
theorem canonical_eq_ok (hacyclic : ∀ x, ¬ TransGen scope.Holds x x) :
    scope.canonical x = .ok (z, e) ↔ scope.StandsFor x z e := by
  refine ⟨standsFor_of_lookThrough, fun h => ?_⟩
  obtain ⟨w, hchain, hend⟩ := canonical_ends hacyclic x
  have hw := h.of_chain hchain
  rcases hend with ⟨hnone, _⟩ | ⟨e', he', hnot, hlook⟩
  · cases hw with
    | self hbody _ => cases hbody.symm.trans hnone
    | through hbody _ => cases hbody.symm.trans hnone
  · obtain ⟨rfl, rfl⟩ := hw.unique (.self he' hnot)
    exact hlook

theorem isDefined_of_check {p : Position} (h : scope.checkExpr (.name x p) = .ok ()) :
    scope.isDefined x = true := by
  unfold checkExpr TypeExpr.fold checkDefined at h
  split at h
  · assumption
  · cases h

/-- A program's scope as it is once it was checked: every name has one definition, none of them
holds itself, and every expression keeps the rules. -/
structure Accepted (scope : Scope) : Prop where
  names : scope.checkNames [] = .ok ()
  recursion : scope.checkRecursion = .ok ()
  exprs : ∀ d ∈ scope, scope.checkExpr d.type = .ok ()

namespace Accepted
variable (h : scope.Accepted)
include h

theorem body (hx : scope.body? x = some e) : scope.checkExpr e = .ok () := by
  obtain ⟨d, hd, rfl⟩ := Option.map_eq_some_iff.mp hx
  exact h.exprs d (List.mem_of_find?_eq_some hd)

theorem acyclic (x : String) : ¬ TransGen scope.Holds x x :=
  acyclic_of_settled (settled_of_checkRecursion h.recursion) x

/-- Every name that is defined stands for a definition that is no alias. -/
theorem standsFor (hx : scope.isDefined x = true) : ∃ z e, scope.StandsFor x z e := by
  induction (settled_of_checkRecursion h.recursion x).ends with
  | intro x _ ih =>
    obtain ⟨e, he⟩ := Option.isSome_iff_exists.mp hx
    by_cases hname : ∃ y p, e = .name y p
    · obtain ⟨y, p, rfl⟩ := hname
      obtain ⟨z, e, hz⟩ := ih y (holds_alias he) (isDefined_of_check (h.body he))
      exact ⟨z, e, .through he hz⟩
    · exact ⟨x, e, .self he fun y p heq => hname ⟨y, p, heq⟩⟩

theorem canonical : scope.canonical x = .ok (z, e) ↔ scope.StandsFor x z e :=
  canonical_eq_ok h.acyclic

/-- A name denotes the primitive type or the definition that it stands for. -/
theorem typeOfName (hx : scope.StandsFor x z e) {type : Ty} (htype : scope.typeOfName x = .ok type) :
    scope.typeOf e = .ok type ∨ scope.Defines z e ∧ type = .named z := by
  obtain ⟨hbody, hnot⟩ := hx.body
  rw [Scope.typeOfName, h.canonical.mpr hx] at htype
  cases e with
  | name y p => exact absurd rfl (hnot y p)
  | primitive keyword => exact .inl htype
  | blob =>
    cases htype
    exact .inr ⟨⟨hbody, .inl rfl⟩, rfl⟩
  | form f =>
    cases htype
    exact .inr ⟨⟨hbody, .inr ⟨f, rfl⟩⟩, rfl⟩

end Accepted

end Scope

theorem Program.check_eq_ok {program : Program} : program.check = .ok () ↔
    Scope.Accepted program.definitions ∧
      ∀ actor, program.actor = some actor →
        Scope.checkActor program.definitions actor = .ok () := by
  have hforM : program.actor.forM (Scope.checkActor program.definitions) = .ok () ↔
      ∀ actor, program.actor = some actor →
        Scope.checkActor program.definitions actor = .ok () := by
    cases program.actor with
    | none => exact ⟨fun _ => nofun, fun _ => rfl⟩
    | some actor => exact ⟨fun h _ heq => Option.some.inj heq ▸ h, fun h => h actor rfl⟩
  unfold Program.check
  constructor
  · intro h
    obtain ⟨_, hnames, h⟩ := except_bind_eq_ok.mp h
    obtain ⟨_, hrecursion, h⟩ := except_bind_eq_ok.mp h
    obtain ⟨_, hexprs, hactor⟩ := except_bind_eq_ok.mp h
    exact ⟨⟨hnames, hrecursion, fun d => forM_eq_ok.mp hexprs d⟩, hforM.mp hactor⟩
  · rintro ⟨haccepted, hactor⟩
    refine except_bind_ok haccepted.names (except_bind_ok haccepted.recursion ?_)
    exact except_bind_ok (forM_eq_ok.mpr haccepted.exprs) (hforM.mpr hactor)

end Didl.Idl
