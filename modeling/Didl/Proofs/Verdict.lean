import Didl.Proofs.ComparisonDepth
import Didl.Proofs.ReadTables
import Didl.Proofs.Registration

namespace Didl.Table

/-- The tables that there are: built step by step, or read from the prelude of a message. -/
inductive Made : Table → Prop
  | built {t : Table} : Built t → Made t
  | read {t : Table} {bytes rest : List UInt8} {args : List Ty} :
      readPrelude bytes = (.ok (t, args), rest) → Made t

theorem Made.sound {t : Table} (h : t.Made) : t.Sound := by
  cases h with
  | built hb => exact hb.sound
  | read hr =>
    obtain ⟨_, _, _, _, _, hrebuilt⟩ := readPrelude_eq_ok hr
    obtain ⟨_, hs⟩ := rebuild_eq_ok hrebuilt
    exact hs.sound

/-- A set of types with all of its names bound that no step leaves holds closed types alone. -/
theorem Closed.of_invariant {t : Table} {P : Ty → Prop}
    (hstep : ∀ u f, P u → t.former u = some f → ∀ v ∈ f.members, P v)
    (hbound : ∀ x, P (.named x) → t.isBound x = true) {type : Ty} (h : P type) : t.Closed type :=
  fun x hx => hbound x (hx.invariant hstep h)

section Verdict
variable {left right : Table} {a b : Ty}

/-- Equal trees below closed types are never told apart. -/
theorem compare_of_unfolding_eq {limit : Nat} {outcome : Except Fault (Bool × NamePairs)}
    (hl : left.Sound) (hr : right.Sound) (ha : left.Closed a) (hb : right.Closed b)
    (he : left.unfolding a = right.unfolding b)
    (h : left.compare right limit [] a b = some outcome) : ∃ met, outcome = .ok (true, met) :=
  compare_of_bisimulation
    (isBisimulation_unfold_eq (fun _ hx => hx.former hl) (fun _ hy => hy.former hr)) ⟨ha, hb, he⟩ h

/-- The verdict is about the infinite trees: a comparison of closed types has no fault, it tells
them equal exactly if their trees are, and where it has no outcome no depth would give it one. -/
theorem equivalent_exact (hl : left.Made) (hr : right.Made) (ha : left.Closed a)
    (hb : right.Closed b) :
    (∀ outcome, left.equivalent a right b = some outcome → ∃ verdict, outcome = .ok verdict ∧
      (verdict = true ↔ left.unfolding a = right.unfolding b)) ∧
    (left.equivalent a right b = none → ∀ limit, left.compare right limit [] a b = none) := by
  refine ⟨?_, equivalent_eq_none⟩
  intro outcome h
  cases hc : left.compare right (comparisonLimit left right a b) [] a b with
  | none => simp [equivalent, hc] at h
  | some result =>
    obtain ⟨verdict, met, rfl⟩ := compare_of_closed hl.sound hr.sound ha hb hc
    simp only [equivalent, hc, Option.some.injEq] at h
    refine ⟨verdict, h.symm, ?_⟩
    constructor
    · rintro rfl
      obtain ⟨R, hR, hab⟩ := exists_bisimulation_of_compare hc
      exact hR.unfold_eq hab
    · intro he
      obtain ⟨_, htrue⟩ := compare_of_unfolding_eq hl.sound hr.sound ha hb he hc
      cases htrue
      rfl

end Verdict

def loop (name : String) : Table := ⟨[.opt (.named name)], [(name, 0)]⟩

theorem loop_built (name : String) : (loop name).Built := by
  have h : registerLabel {} name (.composite (.opt (.named name))) = .ok (0, loop name) := by
    simp [registerLabel, labelCode?, register, Ty.parts, Ty.fold, Ty.foldComposite, Composite.map,
      Composite.members, add, indexOf?, codeOf, loop, Ty.same, Ty.sameComposite]
  exact .registerLabel .empty h

theorem loop_closed (name : String) : (loop name).Closed (.named name) := by
  refine .of_invariant (P := fun u => u = .named name) ?_ ?_ rfl
  · rintro _ f rfl hf v hv
    have hformer : (loop name).former (.named name) = some (.composite (.opt (.named name))) := by
      simp [former, follow, Table.resolve, loop, labelCode?, typeOfCode, Head.former]
    rw [hformer] at hf
    cases hf
    exact List.mem_singleton.mp hv
  · rintro x hx
    cases hx
    simp [isBound, loop, labelCode?]

/-- Two names for the one type that is optional over and over. -/
theorem equivalent_exact_loop :
    (∀ outcome, (loop "a").equivalent (.named "a") (loop "b") (.named "b") = some outcome →
      ∃ verdict, outcome = .ok verdict ∧
        (verdict = true ↔ (loop "a").unfolding (.named "a") = (loop "b").unfolding (.named "b"))) ∧
    ((loop "a").equivalent (.named "a") (loop "b") (.named "b") = none →
      ∀ limit, (loop "a").compare (loop "b") limit [] (.named "a") (.named "b") = none) :=
  equivalent_exact (.built (loop_built "a")) (.built (loop_built "b")) (loop_closed "a")
    (loop_closed "b")

end Didl.Table
