import Mathlib
import Didl.Proofs.Agreement

namespace Didl

def Ty.places : Ty → List Ty :=
  fold (fun p => [.prim p]) (fun x => [.named x])
    (fun c => .composite (c.map Prod.fst) :: c.members.flatMap Prod.snd)

theorem Ty.places_composite (c : Composite Ty) :
    places (.composite c) = .composite c :: c.members.flatMap places := by
  rw [places, fold_composite, map_fst, flatMap_snd]

theorem Ty.length_places (t : Ty) : t.places.length = t.size := by
  induction t using induct with
  | prim p => rfl
  | named x => rfl
  | composite c ih =>
    rw [places_composite, size_composite, List.length_cons, List.length_flatMap,
      List.map_congr_left ih]

theorem Ty.mem_places_self (t : Ty) : t ∈ t.places := by
  cases t with
  | prim p => exact List.mem_singleton_self _
  | named x => exact List.mem_singleton_self _
  | composite c =>
    rw [places_composite]
    exact List.mem_cons_self

theorem Ty.mem_places_of_member {c : Composite Ty} {u v : Ty} (hu : .composite c ∈ u.places)
    (hv : v ∈ c.members) : v ∈ u.places := by
  induction u using induct with
  | prim p => simp [places, fold] at hu
  | named x => simp [places, fold] at hu
  | composite d ih =>
    rw [places_composite] at hu ⊢
    refine List.mem_cons_of_mem _ (List.mem_flatMap.mpr ?_)
    rcases List.mem_cons.mp hu with he | hu
    · cases he
      exact ⟨v, hv, v.mem_places_self⟩
    · obtain ⟨m, hm, hc⟩ := List.mem_flatMap.mp hu
      exact ⟨m, hm, ih m hm hc⟩

namespace Table

def places (t : Table) (type : Ty) : List Ty :=
  type.places ++ t.entries.flatMap fun c => (Ty.composite c).places

theorem length_places (t : Table) (type : Ty) :
    (t.places type).length = type.size + t.nodes := by
  have hfold : ∀ (cs : List (Composite Ty)) (n : Nat),
      cs.foldl (fun n c => n + (Ty.composite c).size) n =
        n + (cs.flatMap fun c => (Ty.composite c).places).length := by
    intro cs
    induction cs with
    | nil => intro n; rfl
    | cons c cs ih =>
      intro n
      rw [List.foldl_cons, ih, List.flatMap_cons, List.length_append, Ty.length_places]
      omega
  rw [places, List.length_append, Ty.length_places, nodes, hfold, Nat.zero_add]

theorem mem_places_self (t : Table) (type : Ty) : type ∈ t.places type :=
  List.mem_append_left _ type.mem_places_self

/-- The members of a place are places again, also where the place is a name. -/
theorem mem_places_of_member {t : Table} {type u v : Ty} {c : Composite Ty}
    (hu : u ∈ t.places type) (hc : t.follow u = .ok (.composite c)) (hv : v ∈ c.members) :
    v ∈ t.places type := by
  have hentry : ∀ {e : Composite Ty} {w : Ty}, e ∈ t.entries → w ∈ (Ty.composite e).places →
      w ∈ t.places type := fun he hw =>
    List.mem_append_right _ (List.mem_flatMap.mpr ⟨_, he, hw⟩)
  cases u with
  | prim p => cases hc
  | named x =>
    simp only [follow, Table.resolve] at hc
    split at hc
    · rcases typeOfCode_eq_ok hc with ⟨p, _, _, he⟩ | ⟨i, e, _, he, heq⟩
      · cases he
      · cases heq
        exact hentry (List.mem_of_getElem? he)
          (Ty.mem_places_of_member (Ty.mem_places_self _) hv)
    · cases hc
  | composite d =>
    cases hc
    rcases List.mem_append.mp hu with hu | hu
    · exact List.mem_append_left _ (Ty.mem_places_of_member hu hv)
    · obtain ⟨e, he, hu⟩ := List.mem_flatMap.mp hu
      exact hentry he (Ty.mem_places_of_member hu hv)

end Table

namespace Comparison
variable {check check' : NamePairs → Ty → Ty → Comparison} {met : NamePairs}
  {pairs : List (Bool × Ty × Ty)} {outcome : Except Fault (Bool × NamePairs)}

def Refines (check check' : NamePairs → Ty → Ty → Comparison) : Prop :=
  ∀ met a b outcome, check met a b = some outcome → check' met a b = some outcome

theorem all_refines (hc : Refines check check') (h : all check met pairs = some outcome) :
    all check' met pairs = some outcome := by
  induction pairs generalizing met with
  | nil => exact h
  | cons p rest ih =>
    obtain ⟨agree, x, y⟩ := p
    simp only [all] at h ⊢
    split at h
    · rename_i hagree
      rw [if_pos hagree]
      split at h
      · rename_i next hxy
        simp only [hc _ _ _ _ hxy]
        exact ih h
      · rename_i hnot
        simp only [hc _ _ _ _ h]
        split
        · rename_i next hxy
          cases hxy
          exact absurd h (hnot next)
        · rfl
    · rename_i hagree
      rw [if_neg hagree]
      exact h

theorem heads_refines (hc : Refines check check') {x y : Head}
    (h : heads check met x y = some outcome) : heads check' met x y = some outcome := by
  cases x <;> cases y <;> simp only [heads] at h ⊢ <;> try exact h
  split at h
  · exact all_refines hc h
  · exact h

/-- Where only the second of two comparisons comes to an outcome on a list of pairs, there is a
pair on which only the second one does. -/
theorem all_deepens {P : NamePairs → Prop} (hc : Refines check check')
    (hP : ∀ met a b met', P met → check met a b = some (.ok (true, met')) → P met') (hm : P met)
    (hnone : all check met pairs = none) (hsome : all check' met pairs = some outcome) :
    ∃ met' p, p ∈ pairs ∧ P met' ∧ check met' p.2.1 p.2.2 = none ∧
      ∃ outcome', check' met' p.2.1 p.2.2 = some outcome' := by
  induction pairs generalizing met with
  | nil => simp [all] at hnone
  | cons p rest ih =>
    obtain ⟨agree, x, y⟩ := p
    simp only [all] at hnone hsome
    split at hnone
    · rename_i hagree
      rw [if_pos hagree] at hsome
      cases hxy : check met x y with
      | none =>
        cases hxy' : check' met x y with
        | none => simp [hxy'] at hsome
        | some outcome' =>
          exact ⟨met, (agree, x, y), List.mem_cons_self, hm, hxy, outcome', hxy'⟩
      | some outcome' =>
        simp only [hxy, hc _ _ _ _ hxy] at hnone hsome
        split at hnone
        · rename_i next heq
          cases heq
          obtain ⟨met', q, hq, hrest⟩ := ih (hP _ _ _ _ hm hxy) hnone hsome
          exact ⟨met', q, List.mem_cons_of_mem _ hq, hrest⟩
        · cases hnone
    · cases hnone

end Comparison

namespace Table
open Comparison
variable {left right : Table} {limit : Nat} {met met' : NamePairs} {a b : Ty}
  {outcome : Except Fault (Bool × NamePairs)}

theorem compare_refines (left right : Table) (limit : Nat) :
    Refines (left.compare right limit) (left.compare right (limit + 1)) := by
  induction limit with
  | zero => intro met a b outcome h; simp [compare] at h
  | succ limit ih =>
    intro met a b outcome h
    rw [compare] at h ⊢
    split at h
    · exact h
    · split at h
      · exact h
      · exact h
      · exact heads_refines ih h

theorem compare_mono {limit' : Nat} (hl : limit ≤ limit')
    (h : left.compare right limit met a b = some outcome) :
    left.compare right limit' met a b = some outcome := by
  induction hl with
  | refl => exact h
  | step _ ih => exact compare_refines left right _ _ _ _ _ ih

def namePairs (left right : Table) : NamePairs :=
  left.labels.map Prod.fst ×ˢ right.labels.map Prod.fst

theorem mem_labels_of_resolve {t : Table} {x : String} {head : Head}
    (h : t.resolve x = .ok head) : x ∈ t.labels.map Prod.fst := by
  unfold Table.resolve labelCode? at h
  cases hx : t.labels.lookup x with
  | none => simp [hx] at h
  | some code =>
    obtain ⟨before, after, he, _⟩ := List.lookup_eq_some_iff.mp hx
    rw [he]
    simp

def Valid (left right : Table) (met : NamePairs) : Prop :=
  met.Nodup ∧ met ⊆ left.namePairs right

theorem Valid.length_le (h : Valid left right met) :
    met.length ≤ left.labels.length * right.labels.length := by
  have := h.1.length_le_of_subset h.2
  rwa [namePairs, List.length_product, List.length_map, List.length_map] at this

theorem Valid.meet {met₁ : NamePairs} {x y : Head} (h : Valid left right met)
    (hm : meet? met a b = some met₁) (hx : left.follow a = .ok x) (hy : right.follow b = .ok y) :
    Valid left right met₁ := by
  rcases meet?_eq_some hm with rfl | ⟨u, v, rfl, rfl, hnew, rfl⟩
  · exact h
  · refine ⟨List.nodup_cons.mpr ⟨hnew, h.1⟩, List.cons_subset.mpr ⟨?_, h.2⟩⟩
    exact List.mem_product.mpr ⟨mem_labels_of_resolve hx, mem_labels_of_resolve hy⟩

theorem Valid.all {check : NamePairs → Ty → Ty → Comparison} {pairs : List (Bool × Ty × Ty)}
    (hc : ∀ met a b met', Valid left right met → check met a b = some (.ok (true, met')) →
      Valid left right met')
    (hm : Valid left right met) (h : all check met pairs = some (.ok (true, met'))) :
    Valid left right met' := by
  induction pairs generalizing met with
  | nil =>
    simp only [Comparison.all, Option.some.injEq, Except.ok.injEq, Prod.mk.injEq, true_and] at h
    exact h ▸ hm
  | cons p rest ih =>
    obtain ⟨agree, x, y⟩ := p
    simp only [Comparison.all] at h
    split at h
    · split at h
      · rename_i next hxy
        exact ih (hc _ _ _ _ hm hxy) h
      · rename_i hnot
        exact absurd h (hnot met')
    · simp at h

theorem Valid.compare (hm : Valid left right met)
    (h : left.compare right limit met a b = some (.ok (true, met'))) : Valid left right met' := by
  induction limit generalizing met met' a b with
  | zero => simp [Table.compare] at h
  | succ limit ih =>
    rcases compare_cases h with ⟨_, he⟩ | ⟨e, he, _⟩ | ⟨met₁, x, y, hmeet, hx, hy, hheads⟩
    · cases he
      exact hm
    · cases he
    · have hm₁ := hm.meet hmeet hx hy
      cases x <;> cases y <;> simp only [heads] at hheads
      · simp only [Option.some.injEq, Except.ok.injEq, Prod.mk.injEq] at hheads
        exact hheads.2 ▸ hm₁
      · simp at hheads
      · simp at hheads
      · split at hheads
        · exact Valid.all (fun _ _ _ _ => ih) hm₁ hheads
        · simp at hheads

/-- A comparison that needs all of its levels hands a pair of members to one that needs all but
one, with at least the pairs of names that it had met itself. -/
theorem compare_deepens (hm : Valid left right met)
    (hnone : left.compare right (limit + 1) met a b = none)
    (hsome : left.compare right (limit + 2) met a b = some outcome) :
    ∃ c d met' u v, left.follow a = .ok (.composite c) ∧ right.follow b = .ok (.composite d) ∧
      u ∈ c.members ∧ v ∈ d.members ∧ met <:+ met' ∧ Valid left right met' ∧
      left.compare right limit met' u v = none ∧
      ∃ outcome', left.compare right (limit + 1) met' u v = some outcome' := by
  rcases compare_cases hsome with ⟨hmeet, _⟩ | ⟨e, _, hfollow⟩ | ⟨met₁, x, y, hmeet, hx, hy, hheads⟩
  · simp [Table.compare, hmeet] at hnone
  · rw [Table.compare] at hnone
    split at hnone
    · cases hnone
    · split at hnone
      · cases hnone
      · cases hnone
      · rename_i hx hy
        simp [former, hx, hy] at hfollow
  · simp only [Table.compare, hmeet, hx, hy] at hnone
    cases x <;> cases y <;> simp only [heads, reduceCtorEq] at hheads hnone
    rename_i c d
    split at hheads
    · rename_i pairs hzip
      rw [hzip] at hnone
      obtain ⟨met', p, hp, ⟨hsuffix, hm'⟩, hcheck, outcome', hcheck'⟩ :=
        all_deepens (P := fun met' => met₁ <:+ met' ∧ Valid left right met')
          (compare_refines left right limit)
          (fun _ _ _ _ hP h => ⟨hP.1.trans (compare_grows _ _ _ _ _ _ _ h), hP.2.compare h⟩)
          ⟨List.suffix_refl _, hm.meet hmeet hx hy⟩ hnone hheads
      obtain ⟨hu, hv⟩ := Composite.mem_zip hzip hp
      exact ⟨c, d, met', p.2.1, p.2.2, hx, hy, hu, hv, (meet?_suffix hmeet).trans hsuffix, hm',
        hcheck, outcome', hcheck'⟩
    · simp_all

/-- What tells the comparisons inside each other apart: the two types, and how many pairs of names
were met. -/
def stations (left right : Table) (a b : Ty) : List (Ty × Ty × Nat) :=
  left.places a ×ˢ right.places b ×ˢ
    List.range (left.labels.length * right.labels.length + 1)

theorem length_stations (left right : Table) (a b : Ty) :
    (left.stations right a b).length + 1 = comparisonLimit left right a b := by
  simp only [stations, List.length_product, List.length_range, length_places, comparisonLimit,
    Nat.mul_assoc]

/-- A comparison that needs all of its levels passes as many stations, each of them once. -/
theorem compare_stations {u v : Ty} (hm : Valid left right met) (hu : u ∈ left.places a)
    (hv : v ∈ right.places b) (hnone : left.compare right limit met u v = none)
    (hsome : left.compare right (limit + 1) met u v = some outcome) :
    ∃ passed : List (Ty × Ty × Nat), passed.length = limit + 1 ∧ passed.Nodup ∧
      ∀ s ∈ passed, s ∈ left.stations right a b ∧ ∃ met' outcome', met <:+ met' ∧
        met'.length = s.2.2 ∧ left.compare right (limit + 1) met' s.1 s.2.1 = some outcome' := by
  have here : (u, v, met.length) ∈ left.stations right a b := by
    have := hm.length_le
    simp only [stations, List.mem_product, List.mem_range]
    exact ⟨hu, hv, by omega⟩
  induction limit generalizing met u v outcome with
  | zero =>
    refine ⟨[(u, v, met.length)], rfl, by simp, ?_⟩
    intro s hs
    rw [List.mem_singleton.mp hs]
    exact ⟨here, met, outcome, List.suffix_refl _, rfl, hsome⟩
  | succ limit ih =>
    obtain ⟨c, d, met', x, y, hc, hd, hx, hy, hsuffix, hm', hnone', outcome', hsome'⟩ :=
      compare_deepens hm hnone hsome
    have hxa := mem_places_of_member hu hc hx
    have hyb := mem_places_of_member hv hd hy
    obtain ⟨passed, hlength, hnodup, hpassed⟩ := ih hm' hxa hyb hnone' hsome' (by
      have := hm'.length_le
      simp only [stations, List.mem_product, List.mem_range]
      exact ⟨hxa, hyb, by omega⟩)
    refine ⟨(u, v, met.length) :: passed, by rw [List.length_cons, hlength],
      List.nodup_cons.mpr ⟨?_, hnodup⟩, ?_⟩
    -- a station that came up again would be the same comparison with fewer levels left
    · intro hmem
      obtain ⟨_, met₂, outcome₂, hsuffix₂, hlength₂, hsome₂⟩ := hpassed _ hmem
      obtain rfl := (hsuffix.trans hsuffix₂).eq_of_length hlength₂.symm
      rw [hsome₂] at hnone
      cases hnone
    · intro s hs
      rcases List.mem_cons.mp hs with rfl | hs
      · exact ⟨here, met, outcome, List.suffix_refl _, rfl, hsome⟩
      · obtain ⟨hstation, met₂, outcome₂, hsuffix₂, hlength₂, hsome₂⟩ := hpassed s hs
        exact ⟨hstation, met₂, outcome₂, hsuffix.trans hsuffix₂, hlength₂,
          compare_mono (Nat.le_succ _) hsome₂⟩

/-- A comparison that comes to an outcome at all does so within the limit. -/
theorem compare_limit (h : left.compare right limit [] a b = some outcome) :
    left.compare right (comparisonLimit left right a b) [] a b = some outcome := by
  induction limit with
  | zero => simp [Table.compare] at h
  | succ limit ih =>
    cases hnone : left.compare right limit [] a b with
    | some outcome' =>
      have hsame := compare_refines left right limit _ _ _ _ hnone
      rw [h] at hsame
      cases hsame
      exact ih hnone
    | none =>
      have hm : Valid left right [] := ⟨List.nodup_nil, List.nil_subset _⟩
      obtain ⟨passed, hlength, hnodup, hpassed⟩ :=
        compare_stations hm (mem_places_self left a) (mem_places_self right b) hnone h
      have hle := hnodup.length_le_of_subset fun s hs => (hpassed s hs).1
      have hlimit := length_stations left right a b
      exact compare_mono (by omega) h

theorem equivalent_eq_none (h : left.equivalent a right b = none) (limit : Nat) :
    left.compare right limit [] a b = none := by
  cases hc : left.compare right limit [] a b with
  | none => rfl
  | some outcome =>
    rw [equivalent, compare_limit hc] at h
    obtain _ | ⟨_, _⟩ := outcome <;> cases h

end Table

end Didl
