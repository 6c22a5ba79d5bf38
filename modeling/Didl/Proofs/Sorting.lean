import Mathlib
import Didl.Sorted

namespace Didl

variable {α β κ : Type} [LT κ] [DecidableLT κ]

theorem insertBy_perm (key : α → κ) (a : α) (as : List α) :
    (insertBy key a as).Perm (a :: as) := by
  induction as with
  | nil => exact .refl _
  | cons b bs ih =>
    unfold insertBy
    split
    · exact (ih.cons b).trans (.swap a b bs)
    · exact .refl _

theorem sortBy_perm (key : α → κ) (as : List α) : (sortBy key as).Perm as := by
  induction as with
  | nil => exact .refl _
  | cons a as ih => exact (insertBy_perm key a (sortBy key as)).trans (ih.cons a)

/-- Two lists that agree on their keys, place by place, are sorted alike. -/
theorem insertBy_forall₂ {key : α → κ} {key' : β → κ} {R : α → β → Prop}
    (hk : ∀ a b, R a b → key a = key' b) {a : α} {b : β} (hab : R a b)
    {as : List α} {bs : List β} (h : List.Forall₂ R as bs) :
    List.Forall₂ R (insertBy key a as) (insertBy key' b bs) := by
  induction h with
  | nil => exact .cons hab .nil
  | @cons x y xs ys hxy hs ih =>
    unfold insertBy
    rw [hk a b hab, hk x y hxy]
    split
    · exact .cons hxy ih
    · exact .cons hab (.cons hxy hs)

theorem sortBy_forall₂ {key : α → κ} {key' : β → κ} {R : α → β → Prop}
    (hk : ∀ a b, R a b → key a = key' b) {as : List α} {bs : List β}
    (h : List.Forall₂ R as bs) : List.Forall₂ R (sortBy key as) (sortBy key' bs) := by
  induction h with
  | nil => exact .nil
  | cons hab _ ih => exact insertBy_forall₂ hk hab ih

/-- Sorting keeps the order of elements with one key, so it does not change which of them
comes first. -/
theorem sortBy_find? [@Std.Irrefl κ (· < ·)] {key : α → κ} {p : α → Bool}
    (hp : ∀ x y, p x = true → p y = true → key x = key y) (as : List α) :
    (sortBy key as).find? p = as.find? p := by
  have hinsert : ∀ a (bs : List α), (insertBy key a bs).find? p = (a :: bs).find? p := by
    intro a bs
    induction bs with
    | nil => rfl
    | cons b bs ih =>
      unfold insertBy
      split
      · rename_i hlt
        rw [List.find?_cons, ih]
        cases hb : p b with
        | false => simp only [List.find?_cons, hb]
        | true =>
          cases ha : p a with
          | false => simp only [List.find?_cons, ha, hb]
          | true =>
            rw [hp a b ha hb] at hlt
            exact absurd hlt (Std.Irrefl.irrefl _)
      · rfl
  induction as with
  | nil => rfl
  | cons a as ih =>
    change (insertBy key a (sortBy key as)).find? p = _
    rw [hinsert, List.find?_cons, List.find?_cons, ih]

omit [DecidableLT κ] in
/-- Lists of the same elements whose keys ascend are one. -/
theorem eq_of_ascending [Std.Asymm (α := κ) (· < ·)] {key : α → κ} {as bs : List α}
    (hperm : as.Perm bs) (has : as.Pairwise fun x y => key x < key y)
    (hbs : bs.Pairwise fun x y => key x < key y) : as = bs :=
  hperm.eq_of_pairwise (fun x y _ _ h h' => absurd h' (Std.Asymm.asymm (key x) (key y) h)) has hbs

theorem Assoc.insert_above {k : κ} {a : α} {map : Assoc κ α} (h : ∀ p ∈ map, p.1 < k) :
    insert k a map = map ++ [(k, a)] := by
  induction map with
  | nil => rfl
  | cons p map ih =>
    obtain ⟨k', a'⟩ := p
    have hk : k' < k := h (k', a') List.mem_cons_self
    simp only [insert, hk, ↓reduceIte, List.cons_append]
    rw [ih fun q hq => h q (List.mem_cons_of_mem _ hq)]

/-- Pairs whose keys ascend are a finite map as they stand. -/
theorem Assoc.ofList_of_ascending {pairs : List (κ × α)}
    (h : pairs.Pairwise fun p q => p.1 < q.1) : ofList pairs = pairs := by
  have hfold : ∀ (done todo : List (κ × α)),
      (done ++ todo).Pairwise (fun p q => p.1 < q.1) →
      todo.foldl (fun map p => insert p.1 p.2 map) done = done ++ todo := by
    intro done todo
    induction todo generalizing done with
    | nil => intro _; simp
    | cons p todo ih =>
      intro hs
      have habove : ∀ q ∈ done, q.1 < p.1 := fun q hq =>
        (List.pairwise_append.mp hs).2.2 q hq p List.mem_cons_self
      rw [List.foldl_cons, insert_above habove, ih _ (by simpa using hs)]
      simp
  exact hfold [] pairs h

variable [LE κ] [Std.IsLinearOrder κ] [Std.LawfulOrderLT κ]

theorem insertBy_pairwise (key : α → κ) (a : α) {as : List α}
    (h : as.Pairwise fun x y => key x ≤ key y) :
    (insertBy key a as).Pairwise fun x y => key x ≤ key y := by
  induction as with
  | nil => exact List.pairwise_singleton _ _
  | cons b bs ih =>
    obtain ⟨hb, hbs⟩ := List.pairwise_cons.mp h
    unfold insertBy
    split
    · rename_i hlt
      refine List.pairwise_cons.mpr ⟨?_, ih hbs⟩
      intro x hx
      rcases List.mem_cons.mp ((insertBy_perm key a bs).mem_iff.mp hx) with rfl | hx
      · exact Std.le_of_lt hlt
      · exact hb x hx
    · rename_i hnot
      have hab : key a ≤ key b := Std.not_lt.mp hnot
      refine List.pairwise_cons.mpr ⟨?_, h⟩
      intro x hx
      rcases List.mem_cons.mp hx with rfl | hx
      · exact hab
      · exact Std.le_trans hab (hb x hx)

theorem sortBy_pairwise (key : α → κ) (as : List α) :
    (sortBy key as).Pairwise fun x y => key x ≤ key y := by
  induction as with
  | nil => exact .nil
  | cons a as ih => exact insertBy_pairwise key a ih

/-- Where no key comes twice the sorted keys ascend strictly. -/
theorem sortBy_ascending {key : α → κ} {as : List α} (h : (as.map key).Nodup) :
    (sortBy key as).Pairwise fun x y => key x < key y := by
  have hnodup : ((sortBy key as).map key).Nodup := ((sortBy_perm key as).map key).nodup_iff.mpr h
  have hne := List.pairwise_map.mp hnodup
  apply ((sortBy_pairwise key as).and hne).imp
  intro x y hxy
  exact Std.lt_of_le_of_ne hxy.1 hxy.2

theorem sortBy_of_pairwise {key : α → κ} {as : List α}
    (h : as.Pairwise fun x y => key x ≤ key y) : sortBy key as = as := by
  induction as with
  | nil => rfl
  | cons a as ih =>
    obtain ⟨ha, has⟩ := List.pairwise_cons.mp h
    change insertBy key a (sortBy key as) = a :: as
    rw [ih has]
    cases as with
    | nil => rfl
    | cons b bs =>
      have hab : ¬ key b < key a := Std.not_lt.mpr (ha b List.mem_cons_self)
      simp only [insertBy, hab, ↓reduceIte]

end Didl
