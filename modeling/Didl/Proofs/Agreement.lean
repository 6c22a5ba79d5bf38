import Didl.Table.Equivalence
import Didl.Proofs.Tables

namespace Didl

theorem forall₂_of_zipWith {α β γ : Type} {f : α → β → γ} {P : γ → Prop} {S : α → β → Prop}
    (hs : ∀ x y, P (f x y) → S x y) {xs : List α} {ys : List β} (hl : xs.length = ys.length)
    (h : ∀ p ∈ xs.zipWith f ys, P p) : List.Forall₂ S xs ys := by
  induction xs generalizing ys with
  | nil =>
    rw [List.length_eq_zero_iff.mp hl.symm]
    exact .nil
  | cons x xs ih =>
    cases ys with
    | nil => simp at hl
    | cons y ys =>
      rw [List.zipWith_cons_cons] at h
      refine .cons (hs x y (h _ List.mem_cons_self)) (ih (by simpa using hl) ?_)
      exact fun p hp => h p (List.mem_cons_of_mem _ hp)

theorem zipWith_of_forall₂ {α β γ : Type} {f : α → β → γ} {P : γ → Prop} {S : α → β → Prop}
    (hs : ∀ x y, S x y → P (f x y)) {xs : List α} {ys : List β} (h : List.Forall₂ S xs ys) :
    ∀ p ∈ xs.zipWith f ys, P p := by
  induction h with
  | nil => simp
  | cons hxy _ ih =>
    intro p hp
    rw [List.zipWith_cons_cons] at hp
    rcases List.mem_cons.mp hp with rfl | hp
    · exact hs _ _ hxy
    · exact ih p hp

theorem mem_of_mem_zipWith {α β γ : Type} {f : α → β → γ} {xs : List α} {ys : List β} {p : γ}
    (h : p ∈ xs.zipWith f ys) : ∃ x ∈ xs, ∃ y ∈ ys, p = f x y := by
  rw [List.zipWith_eq_zipWith_take_min] at h
  obtain ⟨q, hq, rfl⟩ := List.mem_map.mp (by rwa [← List.map_uncurry_zip_eq_zipWith] at h)
  have hmem := List.of_mem_zip hq
  exact ⟨q.1, List.mem_of_mem_take hmem.1, q.2, List.mem_of_mem_take hmem.2, rfl⟩

namespace Composite
variable {α β : Type} {c : Composite α} {d : Composite β} {pairs : List (Bool × α × β)}

/-- Composites laid side by side are related if every pair agrees on its labels and is related. -/
theorem rel_of_zip {R : α → β → Prop} (h : c.zip d = some pairs)
    (hp : ∀ p ∈ pairs, p.1 = true ∧ R p.2.1 p.2.2) : c.Rel R d := by
  cases c <;> cases d <;> simp only [zip, reduceCtorEq, Option.ite_none_right_eq_some,
    Option.some.injEq] at h
  · subst h
    exact .opt (hp _ List.mem_cons_self).2
  · subst h
    exact .vec (hp _ List.mem_cons_self).2
  · obtain ⟨hl, rfl⟩ := h
    exact .record (forall₂_of_zipWith (fun x y h => ⟨by simpa using h.1, h.2⟩) hl hp)
  · obtain ⟨hl, rfl⟩ := h
    exact .variant (forall₂_of_zipWith (fun x y h => ⟨by simpa using h.1, h.2⟩) hl hp)
  · obtain ⟨⟨rfl, hl, hl'⟩, rfl⟩ := h
    have hr := forall₂_of_zipWith (S := R) (fun x y h => h.2)
      (by simp only [List.length_append, hl, hl']) hp
    obtain ⟨ht, hs⟩ := (forall₂_append_iff hl).mp hr
    exact .func _ ht hs
  · obtain ⟨hl, rfl⟩ := h
    exact .service (forall₂_of_zipWith (fun x y h => ⟨by simpa using h.1, h.2⟩) hl hp)
  · obtain ⟨⟨rfl, rfl⟩, _⟩ := h
    exact .future _ _

theorem zip_of_rel {R : α → β → Prop} (h : c.Rel R d) :
    ∃ pairs, c.zip d = some pairs ∧ ∀ p ∈ pairs, p.1 = true ∧ R p.2.1 p.2.2 := by
  cases h with
  | opt h => exact ⟨_, rfl, fun p hp => by rw [List.mem_singleton.mp hp]; exact ⟨rfl, h⟩⟩
  | vec h => exact ⟨_, rfl, fun p hp => by rw [List.mem_singleton.mp hp]; exact ⟨rfl, h⟩⟩
  | record h =>
    exact ⟨_, if_pos h.length_eq, zipWith_of_forall₂ (fun x y h => ⟨by simpa using h.1, h.2⟩) h⟩
  | variant h =>
    exact ⟨_, if_pos h.length_eq, zipWith_of_forall₂ (fun x y h => ⟨by simpa using h.1, h.2⟩) h⟩
  | func modes ht hr =>
    exact ⟨_, if_pos ⟨rfl, ht.length_eq, hr.length_eq⟩,
      zipWith_of_forall₂ (fun x y h => ⟨rfl, h⟩) (List.rel_append ht hr)⟩
  | service h =>
    exact ⟨_, if_pos h.length_eq, zipWith_of_forall₂ (fun x y h => ⟨by simpa using h.1, h.2⟩) h⟩
  | future opcode payload => exact ⟨_, if_pos ⟨rfl, rfl⟩, by simp⟩

theorem mem_zip (h : c.zip d = some pairs) {p : Bool × α × β} (hp : p ∈ pairs) :
    p.2.1 ∈ c.members ∧ p.2.2 ∈ d.members := by
  cases c <;> cases d <;> simp only [zip, reduceCtorEq, Option.ite_none_right_eq_some,
    Option.some.injEq] at h
  · subst h
    rw [List.mem_singleton.mp hp]
    simp [members]
  · subst h
    rw [List.mem_singleton.mp hp]
    simp [members]
  all_goals
    obtain ⟨_, rfl⟩ := h
    first
    | obtain ⟨x, hx, y, hy, rfl⟩ := mem_of_mem_zipWith hp
      simp only [members, List.mem_map]
    | simp at hp
  · exact ⟨⟨x, hx, rfl⟩, y, hy, rfl⟩
  · exact ⟨⟨x, hx, rfl⟩, y, hy, rfl⟩
  · exact ⟨hx, hy⟩
  · exact ⟨⟨x, hx, rfl⟩, y, hy, rfl⟩

end Composite

namespace Comparison
variable {check : NamePairs → Ty → Ty → Comparison} {met met' : NamePairs}
  {pairs : List (Bool × Ty × Ty)} {outcome : Except Fault (Bool × NamePairs)}

def Grows (check : NamePairs → Ty → Ty → Comparison) : Prop :=
  ∀ met a b met', check met a b = some (.ok (true, met')) → met <:+ met'

/-- Two types were compared and agreed, and all pairs of names that came up are among `met`. -/
def Agreed (check : NamePairs → Ty → Ty → Comparison) (met : NamePairs) (a b : Ty) : Prop :=
  ∃ before after, check before a b = some (.ok (true, after)) ∧ after ⊆ met

theorem all_true (hg : Grows check) (h : all check met pairs = some (.ok (true, met'))) :
    met <:+ met' ∧ ∀ p ∈ pairs, p.1 = true ∧ Agreed check met' p.2.1 p.2.2 := by
  induction pairs generalizing met with
  | nil =>
    simp only [all, Option.some.injEq, Except.ok.injEq, Prod.mk.injEq, true_and] at h
    subst h
    exact ⟨List.suffix_refl _, by simp⟩
  | cons p rest ih =>
    obtain ⟨agree, x, y⟩ := p
    simp only [all] at h
    split at h
    · rename_i hagree
      split at h
      · rename_i next hxy
        obtain ⟨hnext, hrest⟩ := ih h
        refine ⟨(hg _ _ _ _ hxy).trans hnext, ?_⟩
        intro q hq
        rcases List.mem_cons.mp hq with rfl | hq
        · exact ⟨hagree, met, next, hxy, hnext.subset⟩
        · exact hrest q hq
      · rename_i hnot
        exact absurd h (hnot met')
    · simp at h

theorem heads_true (hg : Grows check) {x y : Head}
    (h : heads check met x y = some (.ok (true, met'))) :
    met <:+ met' ∧ x.former.Rel (Agreed check met') y.former := by
  cases x <;> cases y <;> simp only [heads] at h
  · simp only [Option.some.injEq, Except.ok.injEq, Prod.mk.injEq, beq_iff_eq] at h
    obtain ⟨rfl, rfl⟩ := h
    exact ⟨List.suffix_refl _, .prim _⟩
  · simp at h
  · simp at h
  · split at h
    · rename_i pairs hzip
      obtain ⟨hmet, hall⟩ := all_true hg h
      exact ⟨hmet, .composite (Composite.rel_of_zip hzip hall)⟩
    · simp at h

/-- What holds of every outcome that a list of pairs can stop with holds of the whole list's. -/
theorem all_outcome {P : Except Fault (Bool × NamePairs) → Prop} (htrue : ∀ met, P (.ok (true, met)))
    (hlabel : ∀ p ∈ pairs, p.1 = false → ∀ met, P (.ok (false, met)))
    (hcheck : ∀ p ∈ pairs, ∀ met outcome, check met p.2.1 p.2.2 = some outcome → P outcome)
    (h : all check met pairs = some outcome) : P outcome := by
  induction pairs generalizing met with
  | nil =>
    simp only [all, Option.some.injEq] at h
    exact h ▸ htrue met
  | cons p rest ih =>
    obtain ⟨agree, x, y⟩ := p
    simp only [all] at h
    split at h
    · split at h
      · exact ih (fun q hq => hlabel q (List.mem_cons_of_mem _ hq))
          (fun q hq => hcheck q (List.mem_cons_of_mem _ hq)) h
      · exact hcheck _ List.mem_cons_self met outcome h
    · rename_i hagree
      simp only [Option.some.injEq] at h
      exact h ▸ hlabel _ List.mem_cons_self (by simpa using hagree) met

end Comparison

namespace Table
open Comparison
variable {left right : Table} {limit : Nat} {met met' : NamePairs} {a b : Ty}
  {outcome : Except Fault (Bool × NamePairs)}

/-- A comparison stops at a pair of names that was met, or looks through names and compares what
it finds there. -/
theorem compare_cases (h : left.compare right (limit + 1) met a b = some outcome) :
    (meet? met a b = none ∧ outcome = .ok (true, met)) ∨
      (∃ e, outcome = .error e ∧ (left.former a = none ∨ right.former b = none)) ∨
      ∃ met₁ x y, meet? met a b = some met₁ ∧ left.follow a = .ok x ∧ right.follow b = .ok y ∧
        heads (left.compare right limit) met₁ x y = some outcome := by
  simp only [compare] at h
  split at h
  · rename_i hmeet
    exact .inl ⟨hmeet, (Option.some.inj h).symm⟩
  · rename_i met₁ hmeet
    split at h
    · rename_i e hfollow
      exact .inr (.inl ⟨e, (Option.some.inj h).symm, .inl (by simp [former, hfollow])⟩)
    · rename_i e hfollow _
      exact .inr (.inl ⟨e, (Option.some.inj h).symm, .inr (by simp [former, hfollow])⟩)
    · rename_i x y hx hy
      exact .inr (.inr ⟨met₁, x, y, hmeet, hx, hy, h⟩)

theorem meet?_eq_none (h : meet? met a b = none) :
    ∃ x y, a = .named x ∧ b = .named y ∧ (x, y) ∈ met := by
  unfold meet? at h
  split at h
  · rename_i x y
    split at h
    · rename_i hmem
      exact ⟨x, y, rfl, rfl, by simpa using hmem⟩
    · cases h
  · cases h

theorem meet?_eq_some {met₁ : NamePairs} (h : meet? met a b = some met₁) :
    met₁ = met ∨ ∃ x y, a = .named x ∧ b = .named y ∧ (x, y) ∉ met ∧ met₁ = (x, y) :: met := by
  unfold meet? at h
  split at h
  · rename_i x y
    split at h
    · cases h
    · rename_i hmem
      exact .inr ⟨x, y, rfl, rfl, by simpa using hmem, (Option.some.inj h).symm⟩
  · exact .inl (Option.some.inj h).symm

theorem meet?_suffix {met₁ : NamePairs} (h : meet? met a b = some met₁) : met <:+ met₁ := by
  rcases meet?_eq_some h with rfl | ⟨x, y, _, _, _, rfl⟩
  · exact List.suffix_refl _
  · exact List.suffix_cons _ _

theorem compare_grows (left right : Table) (limit : Nat) : Grows (left.compare right limit) := by
  induction limit with
  | zero => intro met a b met' h; simp [compare] at h
  | succ limit ih =>
    intro met a b met' h
    rcases compare_cases h with ⟨_, he⟩ | ⟨e, he, _⟩ | ⟨met₁, x, y, hmeet, _, _, hheads⟩
    · cases he
      exact List.suffix_refl _
    · cases he
    · exact (meet?_suffix hmeet).trans (heads_true ih hheads).1

def Expanded (left right : Table) (met : NamePairs) (p : String × String) : Prop :=
  ∃ limit x y, left.follow (.named p.1) = .ok x ∧ right.follow (.named p.2) = .ok y ∧
    x.former.Rel (Agreed (left.compare right limit) met) y.former

theorem Expanded.mono {p : String × String} (h : Expanded left right met p) (hm : met ⊆ met') :
    Expanded left right met' p := by
  obtain ⟨limit, x, y, hx, hy, hr⟩ := h
  refine ⟨limit, x, y, hx, hy, hr.imp ?_⟩
  rintro u v ⟨before, after, hc, hsub⟩
  exact ⟨before, after, hc, List.Subset.trans hsub hm⟩

/-- A comparison that ends well has compared every pair of names that it has newly met: no pair
is only assumed to agree. -/
theorem compare_expanded (h : left.compare right limit met a b = some (.ok (true, met'))) :
    ∀ p ∈ met', p ∈ met ∨ Expanded left right met' p := by
  induction limit generalizing met met' a b with
  | zero => simp [compare] at h
  | succ limit ih =>
    have hall : ∀ {pairs met met'}, all (left.compare right limit) met pairs = some (.ok (true, met')) →
        ∀ p ∈ met', p ∈ met ∨ Expanded left right met' p := by
      intro pairs
      induction pairs with
      | nil =>
        intro met met' h p hp
        simp only [all, Option.some.injEq, Except.ok.injEq, Prod.mk.injEq, true_and] at h
        exact .inl (h ▸ hp)
      | cons q rest ihrest =>
        obtain ⟨agree, u, v⟩ := q
        intro met met' h p hp
        simp only [all] at h
        split at h
        · split at h
          · rename_i next huv
            rcases ihrest h p hp with hp | hp
            · rcases ih huv p hp with hp | hp
              · exact .inl hp
              · exact .inr (hp.mono (all_true (compare_grows _ _ _) h).1.subset)
            · exact .inr hp
          · rename_i hnot
            exact absurd h (hnot met')
        · simp at h
    rcases compare_cases h with ⟨_, he⟩ | ⟨e, he, _⟩ | ⟨met₁, x, y, hmeet, hx, hy, hheads⟩
    · cases he
      exact fun p hp => .inl hp
    · cases he
    · have hrel := (heads_true (compare_grows _ _ _) hheads).2
      have hnew : ∀ p ∈ met', p ∈ met₁ ∨ Expanded left right met' p := by
        cases x <;> cases y <;> simp only [heads] at hheads
        · simp only [Option.some.injEq, Except.ok.injEq, Prod.mk.injEq] at hheads
          exact fun p hp => .inl (hheads.2 ▸ hp)
        · simp at hheads
        · simp at hheads
        · split at hheads
          · exact hall hheads
          · simp at hheads
      intro p hp
      rcases hnew p hp with hp | hp
      · rcases meet?_eq_some hmeet with rfl | ⟨u, v, rfl, rfl, _, rfl⟩
        · exact .inl hp
        · rcases List.mem_cons.mp hp with rfl | hp
          · exact .inr ⟨limit, x, y, hx, hy, hrel⟩
          · exact .inl hp
      · exact .inr hp

/-- The pairs that a comparison has vouched for once it has ended with the pairs of names `met`. -/
def Vouched (left right : Table) (met : NamePairs) (a b : Ty) : Prop :=
  ∃ limit, Agreed (left.compare right limit) met a b

/-- Where every pair of names was expanded, what was vouched for is a bisimulation. -/
theorem vouched_isBisimulation (h : ∀ p ∈ met, Expanded left right met p) :
    IsBisimulation left.former right.former (Vouched left right met) := by
  rintro a b ⟨limit, before, after, hc, hsub⟩
  cases limit with
  | zero => simp [compare] at hc
  | succ limit =>
    rcases compare_cases hc with ⟨hmeet, he⟩ | ⟨e, he, _⟩ | ⟨met₁, x, y, _, hx, hy, hheads⟩
    · obtain ⟨u, v, rfl, rfl, hmem⟩ := meet?_eq_none hmeet
      cases he
      obtain ⟨limit', x, y, hx, hy, hr⟩ := h (u, v) (hsub hmem)
      exact ⟨x.former, y.former, former_eq_some.mpr ⟨x, hx, rfl⟩, former_eq_some.mpr ⟨y, hy, rfl⟩,
        hr.imp fun _ _ hagreed => ⟨limit', hagreed⟩⟩
    · cases he
    · refine ⟨x.former, y.former, former_eq_some.mpr ⟨x, hx, rfl⟩, former_eq_some.mpr ⟨y, hy, rfl⟩, ?_⟩
      apply (heads_true (compare_grows _ _ _) hheads).2.imp
      rintro u v ⟨before', after', huv, hsub'⟩
      exact ⟨limit, before', after', huv, List.Subset.trans hsub' hsub⟩

/-- A comparison that starts with no pair of names and ends well has found a bisimulation. -/
theorem exists_bisimulation_of_compare
    (h : left.compare right limit [] a b = some (.ok (true, met))) :
    ∃ R, IsBisimulation left.former right.former R ∧ R a b := by
  have hexpanded : ∀ p ∈ met, Expanded left right met p := by
    intro p hp
    rcases compare_expanded h p hp with hp | hp
    · simp at hp
    · exact hp
  exact ⟨Vouched left right met, vouched_isBisimulation hexpanded, limit, [], met, h,
    List.Subset.refl _⟩

theorem exists_bisimulation_of_equivalent (h : left.equivalent a right b = some (.ok true)) :
    ∃ R, IsBisimulation left.former right.former R ∧ R a b := by
  unfold equivalent at h
  split at h
  · rename_i verdict met hc
    simp only [Option.some.injEq, Except.ok.injEq] at h
    subst h
    exact exists_bisimulation_of_compare hc
  · simp at h
  · simp at h

/-- Types that a bisimulation relates are never told apart. -/
theorem compare_of_bisimulation {R : Ty → Ty → Prop}
    (hR : IsBisimulation left.former right.former R) (hab : R a b)
    (h : left.compare right limit met a b = some outcome) : ∃ met', outcome = .ok (true, met') := by
  induction limit generalizing met a b outcome with
  | zero => simp [compare] at h
  | succ limit ih =>
    obtain ⟨f, g, hf, hg, hfg⟩ := hR a b hab
    rcases compare_cases h with ⟨_, rfl⟩ | ⟨e, rfl, hnone⟩ | ⟨met₁, x, y, _, hx, hy, hheads⟩
    · exact ⟨met, rfl⟩
    · simp [hf, hg] at hnone
    · obtain rfl : x.former = f := Option.some.inj ((former_eq_some.mpr ⟨x, hx, rfl⟩).symm.trans hf)
      obtain rfl : y.former = g := Option.some.inj ((former_eq_some.mpr ⟨y, hy, rfl⟩).symm.trans hg)
      cases x with
      | prim p =>
        cases y with
        | prim q =>
          cases hfg
          simp only [heads, beq_self_eq_true, Option.some.injEq] at hheads
          exact ⟨met₁, hheads.symm⟩
        | composite d => cases hfg
      | composite c =>
        cases y with
        | prim q => cases hfg
        | composite d =>
          cases hfg with
          | composite hcd =>
            obtain ⟨pairs, hzip, hpairs⟩ := Composite.zip_of_rel hcd
            simp only [heads, hzip] at hheads
            refine all_outcome (P := fun o => ∃ met', o = .ok (true, met')) ?_ ?_ ?_ hheads
            · exact fun met => ⟨met, rfl⟩
            · intro p hp hfalse
              simp [(hpairs p hp).1] at hfalse
            · intro p hp met₂ o ho
              exact ih (hpairs p hp).2 ho

/-- Where no name is missing a comparison has no fault. -/
theorem compare_of_closed (hl : left.Sound) (hr : right.Sound) (ha : left.Closed a)
    (hb : right.Closed b) (h : left.compare right limit met a b = some outcome) :
    ∃ verdict met', outcome = .ok (verdict, met') := by
  induction limit generalizing met a b outcome with
  | zero => simp [compare] at h
  | succ limit ih =>
    obtain ⟨f, hf, hfm⟩ := ha.former hl
    obtain ⟨g, hg, hgm⟩ := hb.former hr
    rcases compare_cases h with ⟨_, rfl⟩ | ⟨e, rfl, hnone⟩ | ⟨met₁, x, y, _, hx, hy, hheads⟩
    · exact ⟨true, met, rfl⟩
    · simp [hf, hg] at hnone
    · obtain rfl : x.former = f := Option.some.inj ((former_eq_some.mpr ⟨x, hx, rfl⟩).symm.trans hf)
      obtain rfl : y.former = g := Option.some.inj ((former_eq_some.mpr ⟨y, hy, rfl⟩).symm.trans hg)
      cases x <;> cases y <;> simp only [heads] at hheads
      case composite.composite c d =>
        split at hheads
        · rename_i pairs hzip
          refine all_outcome (P := fun o => ∃ verdict met', o = .ok (verdict, met')) ?_ ?_ ?_ hheads
          · exact fun met => ⟨true, met, rfl⟩
          · exact fun _ _ _ met => ⟨false, met, rfl⟩
          · intro p hp met₂ o ho
            obtain ⟨hc, hd⟩ := Composite.mem_zip hzip hp
            exact ih (hfm _ hc) (hgm _ hd) ho
        · exact ⟨_, _, (Option.some.inj hheads).symm⟩
      all_goals exact ⟨_, _, (Option.some.inj hheads).symm⟩

end Table

end Didl
