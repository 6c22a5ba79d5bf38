import Didl.Idl.Check
import Didl.Proofs.Traversal

namespace Didl.Idl

open Relation

namespace Scope

/-- The first definition of a name holds another name outside every option, vector, variant and
reference. -/
def Holds (scope : Scope) (x y : String) : Prop :=
  ∃ e held, scope.body? x = some e ∧ e.heldNames = .ok held ∧ y ∈ held

/-- What a definition holds can be told, and nothing is held without end. -/
structure Settled (scope : Scope) (x : String) : Prop where
  told : ∀ e, scope.body? x = some e → ∃ held, e.heldNames = .ok held
  ends : Acc (fun y x => scope.Holds x y) x

def Within (fresh scope : Scope) : Prop :=
  ∀ x e, fresh.body? x = some e → scope.body? x = some e

namespace Within
variable {fresh scope other : Scope}

theorem refl (scope : Scope) : Within scope scope := fun _ _ h => h

theorem trans (h : Within fresh scope) (k : Within scope other) : Within fresh other :=
  fun x e he => k x e (h x e he)

theorem none (h : Within fresh scope) {x : String} (hx : scope.body? x = .none) :
    fresh.body? x = .none := by
  cases he : fresh.body? x with
  | none => rfl
  | some e => rw [h x e he] at hx; cases hx

end Within

theorem body?_without (scope : Scope) (x y : String) :
    (Recursion.without x scope).body? y = if y = x then none else scope.body? y := by
  unfold body? Recursion.without
  rw [List.find?_filter]
  split
  · rename_i heq
    subst heq
    rw [Option.map_eq_none_iff, List.find?_eq_none]
    simp
  · rename_i hne
    congr 2
    funext d
    by_cases hd : d.name = y <;> simp [hd, hne]

theorem within_without (scope : Scope) (x : String) : Within (Recursion.without x scope) scope := by
  intro y e he
  rw [body?_without] at he
  split at he
  · cases he
  · exact he

end Scope

namespace Recursion
variable {scope fresh : Scope} {opened : List String} {x : String} {rest : List Visit}

theorem search_enter_missing (hx : x ∉ opened) (hfresh : fresh.body? x = none) :
    search fresh opened (.enter x :: rest) = search fresh opened rest := by
  rw [search, if_neg (by simpa using hx)]
  split
  · rfl
  · rename_i d hd
    simp [Scope.body?, hd] at hfresh

theorem search_enter_defined {e : TypeExpr} (hx : x ∉ opened) (hfresh : fresh.body? x = some e) :
    search fresh opened (.enter x :: rest) = e.heldNames.bind fun held =>
      search (without x fresh) (x :: opened) (held.map .enter ++ .leave x :: rest) := by
  obtain ⟨d, hd, rfl⟩ := Option.map_eq_some_iff.mp hfresh
  rw [search, if_neg (by simpa using hx)]
  split
  · rename_i hnone
    rw [hd] at hnone
    cases hnone
  · rename_i d' hd'
    rw [hd] at hd'
    cases hd'
    cases d.type.heldNames <;> rfl

theorem search_enter_found {e : TypeExpr} {held : List String} (hx : x ∉ opened)
    (hfresh : fresh.body? x = some e) (hheld : e.heldNames = .ok held) :
    search fresh opened (.enter x :: rest) =
      search (without x fresh) (x :: opened) (held.map .enter ++ .leave x :: rest) := by
  rw [search_enter_defined hx hfresh, hheld]
  rfl

/-- A visit that succeeds is to a name that is not open, and what the name holds can be told. -/
theorem search_enter_eq_ok (h : search fresh opened (.enter x :: rest) = .ok ()) :
    x ∉ opened ∧ ∀ e, fresh.body? x = some e → ∃ held, e.heldNames = .ok held := by
  rw [search] at h
  split at h
  · cases h
  rename_i hx
  refine ⟨by simpa using hx, fun e he => ?_⟩
  obtain ⟨d, hd, rfl⟩ := Option.map_eq_some_iff.mp he
  split at h
  · rename_i hnone
    rw [hd] at hnone
    cases hnone
  · rename_i d' hd'
    rw [hd] at hd'
    cases hd'
    split at h
    · cases h
    · rename_i held hheld
      exact ⟨held, hheld⟩

theorem search_leave (hx : x ∉ opened) :
    search fresh (x :: opened) (.leave x :: rest) = search fresh opened rest := by
  have hopened : (x :: opened).filter (· != x) = opened := by
    rw [List.filter_cons_of_neg (by simp), List.filter_eq_self]
    intro y hy
    simpa using fun heq : y = x => hx (heq ▸ hy)
  rw [search, hopened]

theorem length_without_lt_of_body? {e : TypeExpr} (h : fresh.body? x = some e) :
    (without x fresh).length < fresh.length := by
  obtain ⟨d, hd, _⟩ := Option.map_eq_some_iff.mp h
  exact length_without_lt hd

/-- The names that were entered and left are settled, so what is asked for next is settled once it
was visited. The induction is on the definitions that were not entered, then on what is asked
for. -/
theorem settled_of_search {fresh : Scope} {opened : List String} {rest : List Visit}
    (asked : List String) (hwithin : Scope.Within fresh scope)
    (hdone : ∀ y, fresh.body? y = none → y ∉ opened → scope.Settled y)
    (h : search fresh opened (asked.map .enter ++ rest) = .ok ()) :
    ∃ fresh' : Scope, fresh'.length ≤ fresh.length ∧ Scope.Within fresh' fresh ∧
      (∀ y, fresh'.body? y = none → y ∉ opened → scope.Settled y) ∧
      (∀ y ∈ asked, fresh'.body? y = none ∧ y ∉ opened) ∧
      search fresh' opened rest = .ok () := by
  match asked with
  | [] => exact ⟨fresh, Nat.le_refl _, .refl fresh, hdone, nofun, h⟩
  | x :: asked =>
    obtain ⟨hx, htold⟩ := search_enter_eq_ok h
    cases hfresh : fresh.body? x with
    | none =>
      rw [List.map_cons, List.cons_append, search_enter_missing hx hfresh] at h
      obtain ⟨fresh', hle, hwithin', hdone', hasked, h'⟩ :=
        settled_of_search asked hwithin hdone h
      exact ⟨fresh', hle, hwithin', hdone',
        List.forall_mem_cons.mpr ⟨⟨hwithin'.none hfresh, hx⟩, hasked⟩, h'⟩
    | some e =>
      obtain ⟨held, hheld⟩ := htold e hfresh
      have hlt := length_without_lt_of_body? hfresh
      rw [List.map_cons, List.cons_append, search_enter_found hx hfresh hheld] at h
      have hinner : ∀ y, (without x fresh).body? y = none → y ∉ x :: opened → scope.Settled y := by
        intro y hy hnot
        obtain ⟨hne, hnot⟩ := not_or.mp (mt List.mem_cons.mpr hnot)
        rw [Scope.body?_without, if_neg hne] at hy
        exact hdone y hy hnot
      obtain ⟨fresh₁, hle₁, hwithin₁, hdone₁, hheld₁, h₁⟩ :=
        settled_of_search held ((Scope.within_without fresh x).trans hwithin) hinner h
      rw [search_leave hx] at h₁
      have hsettled : scope.Settled x := by
        refine ⟨fun e' he' => ?_, .intro x fun y ⟨e', held', he', hheld', hy⟩ => ?_⟩
        · rw [hwithin x e hfresh] at he'
          cases he'
          exact ⟨held, hheld⟩
        · rw [hwithin x e hfresh] at he'
          cases he'
          rw [hheld] at hheld'
          cases hheld'
          exact (hdone₁ y (hheld₁ y hy).1 (hheld₁ y hy).2).ends
      have hdone₂ : ∀ y, fresh₁.body? y = none → y ∉ opened → scope.Settled y := by
        intro y hy hnot
        by_cases heq : y = x
        · exact heq ▸ hsettled
        · exact hdone₁ y hy (by simp [heq, hnot])
      have hwithin₂ := hwithin₁.trans (Scope.within_without fresh x)
      obtain ⟨fresh', hle, hwithin', hdone', hasked, h'⟩ :=
        settled_of_search asked (hwithin₂.trans hwithin) hdone₂ h₁
      have hgone : fresh₁.body? x = none := hwithin₁.none (by rw [Scope.body?_without, if_pos rfl])
      exact ⟨fresh', by omega, hwithin'.trans hwithin₂, hdone',
        List.forall_mem_cons.mpr ⟨⟨hwithin'.none hgone, hx⟩, hasked⟩, h'⟩
termination_by (fresh.length, asked.length)

/-- Where nothing holds itself, names from which no open one is reached are visited and left. -/
theorem search_of_acyclic {fresh : Scope} (opened : List String) (rest : List Visit)
    (asked : List String) (hwithin : Scope.Within fresh scope)
    (htold : ∀ y e, scope.body? y = some e → ∃ held, e.heldNames = .ok held)
    (hacyclic : ∀ y, ¬ TransGen scope.Holds y y)
    (hasked : ∀ y ∈ asked, ∀ z ∈ opened, ¬ ReflTransGen scope.Holds y z) :
    ∃ fresh' : Scope, fresh'.length ≤ fresh.length ∧ Scope.Within fresh' fresh ∧
      search fresh opened (asked.map .enter ++ rest) = search fresh' opened rest := by
  match asked with
  | [] => exact ⟨fresh, Nat.le_refl _, .refl fresh, rfl⟩
  | x :: asked =>
    obtain ⟨hfirst, hasked⟩ := List.forall_mem_cons.mp hasked
    have hx : x ∉ opened := fun hmem => hfirst x hmem .refl
    rw [List.map_cons, List.cons_append]
    cases hfresh : fresh.body? x with
    | none =>
      rw [search_enter_missing hx hfresh]
      exact search_of_acyclic opened rest asked hwithin htold hacyclic hasked
    | some e =>
      obtain ⟨held, hheld⟩ := htold x e (hwithin x e hfresh)
      have hlt := length_without_lt_of_body? hfresh
      have hinner : ∀ y ∈ held, ∀ z ∈ x :: opened, ¬ ReflTransGen scope.Holds y z := by
        intro y hy z hz hreach
        have hstep : scope.Holds x y := ⟨e, held, hwithin x e hfresh, hheld, hy⟩
        rcases List.mem_cons.mp hz with rfl | hz
        · exact hacyclic z (.head' hstep hreach)
        · exact hfirst z hz (.head hstep hreach)
      obtain ⟨fresh₁, hle₁, hwithin₁, h₁⟩ := search_of_acyclic (x :: opened)
        (.leave x :: (asked.map .enter ++ rest)) held
        ((Scope.within_without fresh x).trans hwithin) htold hacyclic hinner
      have hwithin₂ := hwithin₁.trans (Scope.within_without fresh x)
      obtain ⟨fresh', hle, hwithin', h'⟩ := search_of_acyclic opened rest asked
        (hwithin₂.trans hwithin) htold hacyclic hasked
      refine ⟨fresh', by omega, hwithin'.trans hwithin₂, ?_⟩
      rw [search_enter_found hx hfresh hheld, h₁, search_leave hx, h']
termination_by (fresh.length, asked.length)

/-- Where every open name leads to what is asked for, a fault names a definition that holds itself, or
it comes from behind. -/
theorem circle_of_search {fresh : Scope} {opened : List String} {rest : List Visit}
    (asked : List String) (hwithin : Scope.Within fresh scope)
    (htold : ∀ y e, scope.body? y = some e → ∃ held, e.heldNames = .ok held)
    (hopened : ∀ y ∈ asked, ∀ z ∈ opened, TransGen scope.Holds z y) {cause : CompileFault}
    (h : search fresh opened (asked.map .enter ++ rest) = .error cause) :
    (∃ x, cause = .recursiveNesting x ∧ TransGen scope.Holds x x) ∨
      ∃ fresh' : Scope, fresh'.length ≤ fresh.length ∧ Scope.Within fresh' fresh ∧
        search fresh' opened rest = .error cause := by
  match asked with
  | [] => exact .inr ⟨fresh, Nat.le_refl _, .refl fresh, h⟩
  | x :: asked =>
    obtain ⟨hfirst, hopened⟩ := List.forall_mem_cons.mp hopened
    rw [List.map_cons, List.cons_append] at h
    by_cases hx : x ∈ opened
    · rw [search, if_pos (by simpa using hx)] at h
      cases h
      exact .inl ⟨x, rfl, hfirst x hx⟩
    cases hfresh : fresh.body? x with
    | none =>
      rw [search_enter_missing hx hfresh] at h
      exact circle_of_search asked hwithin htold hopened h
    | some e =>
      obtain ⟨held, hheld⟩ := htold x e (hwithin x e hfresh)
      have hlt := length_without_lt_of_body? hfresh
      have hinner : ∀ y ∈ held, ∀ z ∈ x :: opened, TransGen scope.Holds z y := by
        intro y hy z hz
        have hstep : scope.Holds x y := ⟨e, held, hwithin x e hfresh, hheld, hy⟩
        rcases List.mem_cons.mp hz with rfl | hz
        · exact .single hstep
        · exact (hfirst z hz).tail hstep
      rw [search_enter_found hx hfresh hheld] at h
      rcases circle_of_search held ((Scope.within_without fresh x).trans hwithin) htold hinner h with
        hcircle | ⟨fresh₁, hle₁, hwithin₁, h₁⟩
      · exact .inl hcircle
      rw [search_leave hx] at h₁
      have hwithin₂ := hwithin₁.trans (Scope.within_without fresh x)
      rcases circle_of_search asked (hwithin₂.trans hwithin) htold hopened h₁ with
        hcircle | ⟨fresh', hle', hwithin', h'⟩
      · exact .inl hcircle
      · exact .inr ⟨fresh', by omega, hwithin'.trans hwithin₂, h'⟩
termination_by (fresh.length, asked.length)

end Recursion

namespace Scope
variable {scope : Scope}

theorem checkRecursion_eq : scope.checkRecursion =
    Recursion.search scope [] ((scope.map Definition.name).map .enter ++ []) := by
  rw [checkRecursion, List.append_nil, List.map_map]
  rfl

theorem settled_of_checkRecursion (h : scope.checkRecursion = .ok ()) (x : String) :
    scope.Settled x := by
  have hundefined : ∀ x, scope.body? x = none → scope.Settled x := fun x hx =>
    ⟨fun e he => (Option.some_ne_none e (he.symm.trans hx)).elim,
      .intro x fun y ⟨e, _, he, _⟩ => (Option.some_ne_none e (he.symm.trans hx)).elim⟩
  rw [checkRecursion_eq] at h
  obtain ⟨fresh, _, _, hdone, hasked, _⟩ := Recursion.settled_of_search _ (.refl scope)
    (fun x hx _ => hundefined x hx) h
  cases hx : scope.body? x with
  | none => exact hundefined x hx
  | some e =>
    obtain ⟨d, hd, _⟩ := Option.map_eq_some_iff.mp hx
    obtain rfl : d.name = x := by simpa using List.find?_some hd
    have hname := List.mem_map_of_mem (f := Definition.name) (List.mem_of_find?_eq_some hd)
    exact hdone _ (hasked _ hname).1 nofun

theorem acyclic_of_settled (h : ∀ x, scope.Settled x) (x : String) :
    ¬ TransGen scope.Holds x x := by
  have hends : WellFounded fun y x => scope.Holds x y := ⟨fun x => (h x).ends⟩
  exact fun hx => hends.transGen.irrefl.irrefl x (transGen_swap.mpr hx)

/-- The definitions are accepted exactly if what each of them holds can be told and none holds
itself, directly or through others. -/
theorem checkRecursion_eq_ok : scope.checkRecursion = .ok () ↔
    (∀ x e, scope.body? x = some e → ∃ held, e.heldNames = .ok held) ∧
      ∀ x, ¬ TransGen scope.Holds x x := by
  constructor
  · intro h
    have hsettled := settled_of_checkRecursion h
    exact ⟨fun x => (hsettled x).told, acyclic_of_settled hsettled⟩
  · rintro ⟨htold, hacyclic⟩
    obtain ⟨fresh, _, _, h⟩ := Recursion.search_of_acyclic [] [] (scope.map Definition.name)
      (.refl scope) htold hacyclic nofun
    rw [checkRecursion_eq, h, Recursion.search]

/-- Where what each definition holds can be told, the only fault names a definition that holds
itself. -/
theorem circle_of_checkRecursion
    (htold : ∀ x e, scope.body? x = some e → ∃ held, e.heldNames = .ok held) {cause : CompileFault}
    (h : scope.checkRecursion = .error cause) :
    ∃ x, cause = .recursiveNesting x ∧ TransGen scope.Holds x x := by
  rw [checkRecursion_eq] at h
  rcases Recursion.circle_of_search (scope.map Definition.name) (.refl scope) htold
      (fun _ _ => List.forall_mem_nil _) h with
    hcircle | ⟨_, _, _, hend⟩
  · exact hcircle
  · rw [Recursion.search] at hend
    cases hend

end Scope

end Didl.Idl
