import Didl.Proofs.ComparisonDepth

namespace Didl

namespace Comparison
variable {check : NamePairs → Ty → Ty → Comparison} {met : NamePairs}
  {pairs : List (Bool × Ty × Ty)}

/-- A list of pairs is gone through if each pair is compared to an outcome, whatever more was met
meanwhile. -/
theorem all_returns {P : NamePairs → Prop}
    (hP : ∀ met a b met', P met → check met a b = some (.ok (true, met')) → P met') (hm : P met)
    (h : ∀ p ∈ pairs, ∀ met, P met → ∃ outcome, check met p.2.1 p.2.2 = some outcome) :
    ∃ outcome, all check met pairs = some outcome := by
  induction pairs generalizing met with
  | nil => exact ⟨_, rfl⟩
  | cons p rest ih =>
    obtain ⟨agree, x, y⟩ := p
    obtain ⟨outcome, hxy⟩ := h _ List.mem_cons_self met hm
    simp only [all]
    split
    · simp only at hxy
      rw [hxy]
      split
      · rename_i met' heq
        cases heq
        exact ih (hP _ _ _ _ hm hxy) fun q hq => h q (List.mem_cons_of_mem _ hq)
      · exact ⟨_, rfl⟩
    · exact ⟨_, rfl⟩

end Comparison

namespace Table
open Comparison
variable {left right : Table}

def BothNamed (a b : Ty) : Prop := ∃ x y, a = .named x ∧ b = .named y

/-- Pairs of types that show the same and have a rank, such that each pair of members is a pair of
names or has a smaller rank. Ranks have a bound. -/
structure Descends (left right : Table) (bound : Nat) (R : Nat → Ty → Ty → Prop) : Prop where
  rank_le : ∀ rank a b, R rank a b → rank ≤ bound
  step : ∀ rank a b, R rank a b → ∃ f g, left.former a = some f ∧ right.former b = some g ∧
    f.Rel (fun u v => ∃ rank', R rank' u v ∧ (rank' < rank ∨ BothNamed u v)) g

/-- The pairs of names that were not met yet weigh more than all ranks, and a pair of names weighs
less than any other pair. -/
noncomputable def weight (left right : Table) (bound : Nat) (met : NamePairs) (rank : Nat)
    (a b : Ty) : Nat :=
  open Classical in
  (left.labels.length * right.labels.length - met.length) * (bound + 2) +
    if BothNamed a b then 0 else rank + 1

variable {bound : Nat} {R : Nat → Ty → Ty → Prop}

/-- A step takes from the weight: it meets a new pair of names, or goes on to a pair of names or to
a smaller rank. -/
theorem weight_lt {met met₁ met' : NamePairs} {rank rank' : Nat} {a b u v : Ty}
    (hmeet : meet? met a b = some met₁) (hsuffix : met₁ <:+ met') (hvalid : Valid left right met')
    (hle : rank' ≤ bound) (hlt : rank' < rank ∨ BothNamed u v) :
    weight left right bound met' rank' u v < weight left right bound met rank a b := by
  have hlength := hsuffix.length_le
  have hmost := hvalid.length_le
  unfold weight
  by_cases hab : BothNamed a b
  · obtain ⟨x, y, rfl, rfl⟩ := hab
    obtain rfl : met₁ = (x, y) :: met := by
      simp only [meet?] at hmeet
      split at hmeet
      · cases hmeet
      · exact (Option.some.inj hmeet).symm
    rw [List.length_cons] at hlength
    have hfewer : left.labels.length * right.labels.length - met'.length + 1 ≤
        left.labels.length * right.labels.length - met.length := by omega
    have hmul := Nat.mul_le_mul_right (bound + 2) hfewer
    rw [Nat.add_mul] at hmul
    split <;> omega
  · have hgrown := (meet?_suffix hmeet).length_le
    have hmul := Nat.mul_le_mul_right (bound + 2) (show left.labels.length * right.labels.length -
      met'.length ≤ left.labels.length * right.labels.length - met.length by omega)
    rw [if_neg hab]
    split <;> rename_i huv
    · omega
    · have := hlt.resolve_right huv
      omega

/-- A comparison of a pair that has a rank comes to an outcome. -/
theorem Descends.compare_returns (h : Descends left right bound R) {limit : Nat}
    {met : NamePairs} {rank : Nat} {a b : Ty} (hm : Valid left right met) (hR : R rank a b)
    (hlimit : weight left right bound met rank a b < limit) :
    ∃ outcome, left.compare right limit met a b = some outcome := by
  induction limit generalizing met rank a b with
  | zero => omega
  | succ limit ih =>
    rw [compare]
    split
    · exact ⟨_, rfl⟩
    · rename_i met₁ hmeet
      obtain ⟨f, g, hf, hg, hfg⟩ := h.step rank a b hR
      obtain ⟨x, hx, rfl⟩ := former_eq_some.mp hf
      obtain ⟨y, hy, rfl⟩ := former_eq_some.mp hg
      rw [hx, hy]
      dsimp only
      cases x with
      | prim p => cases y <;> exact ⟨_, rfl⟩
      | composite c =>
        cases y with
        | prim q => exact ⟨_, rfl⟩
        | composite d =>
          cases hfg with
          | composite hcd =>
            obtain ⟨pairs, hzip, hpairs⟩ := Composite.zip_of_rel hcd
            simp only [heads, hzip]
            refine all_returns (P := fun met' => met₁ <:+ met' ∧ Valid left right met')
              (fun _ _ _ _ hP hc => ⟨hP.1.trans (compare_grows _ _ _ _ _ _ _ hc), hP.2.compare hc⟩)
              ⟨List.suffix_refl _, hm.meet hmeet hx hy⟩ ?_
            rintro p hp met' ⟨hsuffix, hm'⟩
            obtain ⟨_, rank', hR', hlt⟩ := hpairs p hp
            have hweight : _ < weight left right bound met rank a b :=
              weight_lt hmeet hsuffix hm' (h.rank_le _ _ _ hR') hlt
            exact ih hm' hR' (by omega)

theorem Descends.isBisimulation (h : Descends left right bound R) :
    IsBisimulation left.former right.former fun a b => ∃ rank, R rank a b := by
  rintro a b ⟨rank, hR⟩
  obtain ⟨f, g, hf, hg, hfg⟩ := h.step rank a b hR
  exact ⟨f, g, hf, hg, hfg.imp fun _ _ ⟨rank', hR', _⟩ => ⟨rank', hR'⟩⟩

/-- Types that a bisimulation relates agree, if they can be compared. -/
theorem equivalent_of_bisimulation {R : Ty → Ty → Prop} {a b : Ty}
    (hR : IsBisimulation left.former right.former R) (hab : R a b) :
    left.equivalent a right b = none ∨ left.equivalent a right b = some (.ok true) := by
  rw [Table.equivalent]
  cases hcompare : left.compare right (comparisonLimit left right a b) [] a b with
  | none => exact .inl rfl
  | some outcome =>
    obtain ⟨met, rfl⟩ := compare_of_bisimulation hR hab hcompare
    exact .inr rfl

/-- Types that have a rank are found to agree. -/
theorem Descends.equivalent (h : Descends left right bound R) {rank : Nat} {a b : Ty}
    (hR : R rank a b) : left.equivalent a right b = some (.ok true) := by
  have hm : Valid left right [] := ⟨List.nodup_nil, List.nil_subset _⟩
  obtain ⟨outcome, hcompare⟩ := h.compare_returns hm hR (Nat.lt_succ_self _)
  refine (equivalent_of_bisimulation h.isBisimulation ⟨rank, hR⟩).resolve_left fun hnone => ?_
  rw [equivalent_eq_none hnone] at hcompare
  cases hcompare

end Table

end Didl
