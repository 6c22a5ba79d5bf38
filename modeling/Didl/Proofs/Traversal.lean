import Didl.Proofs.Types

namespace Didl
variable {α β ε σ : Type}

namespace Composite

theorem shape_map (f : α → β) (c : Composite α) : (c.map f).shape = c.shape := by
  cases c <;> simp [map, shape, Function.comp_def]

theorem Rel.map_right {γ : Type} {R : α → γ → Prop} {f : β → γ} {c : Composite α} {d : Composite β}
    (h : c.Rel (fun x y => R x (f y)) d) : c.Rel R (d.map f) := by
  refine rel_iff.mpr ⟨h.shape_eq.trans (shape_map f d).symm, ?_⟩
  rw [members_map]
  exact List.forall₂_map_right_iff.mpr h.members

def refill [Inhabited β] : Composite α → List β → Composite β
  | opt _, bs => opt bs.head!
  | vec _, bs => vec bs.head!
  | record fs, bs => record (fs.zipWith (fun x b => ⟨x.id, x.name, b⟩) bs)
  | variant fs, bs => variant (fs.zipWith (fun x b => ⟨x.id, x.name, b⟩) bs)
  | func args _ modes, bs => func (bs.take args.length) (bs.drop args.length) modes
  | service ms, bs => service (ms.zipWith (fun x b => ⟨x.name, b⟩) bs)
  | future opcode payload, _ => future opcode payload

section Refill
variable [Inhabited β] {c : Composite α} {bs : List β}

theorem refill_shape (h : c.members.length = bs.length) : (c.refill bs).shape = c.shape := by
  cases c with
  | opt | vec | future => rfl
  | record fs | variant fs =>
    simp only [members, List.length_map] at h
    simp only [refill, shape, List.map_zipWith]
    congr 1
    exact List.ext_getElem (by simp [h]) (by simp)
  | func args results modes =>
    simp only [members, List.length_append] at h
    simp only [refill, shape, List.length_take, List.length_drop]
    congr 1 <;> omega
  | service ms =>
    simp only [members, List.length_map] at h
    simp only [refill, shape, List.map_zipWith]
    congr 1
    exact List.ext_getElem (by simp [h]) (by simp)

theorem refill_members (h : c.members.length = bs.length) : (c.refill bs).members = bs := by
  cases c with
  | opt t | vec t =>
    obtain ⟨b, rfl⟩ := List.length_eq_one_iff.mp h.symm
    rfl
  | record fs | variant fs =>
    simp only [members, List.length_map] at h
    simp only [refill, members, List.map_zipWith]
    exact List.ext_getElem (by simp [h]) (by simp)
  | func args results modes => exact List.take_append_drop _ _
  | service ms =>
    simp only [members, List.length_map] at h
    simp only [refill, members, List.map_zipWith]
    exact List.ext_getElem (by simp [h]) (by simp)
  | future opcode payload => exact (List.length_eq_zero_iff.mp h.symm).symm

theorem refill_rel {R : α → β → Prop} (h : List.Forall₂ R c.members bs) : c.Rel R (c.refill bs) := by
  refine rel_iff.mpr ⟨(refill_shape h.length_eq).symm, ?_⟩
  rwa [refill_members h.length_eq]

/-- To compute the image of each member is to compute those of the list of members. -/
theorem mapM_eq {m : Type → Type} [Monad m] [LawfulMonad m] (f : α → m β) (c : Composite α) :
    c.mapM f = c.refill <$> c.members.mapM f := by
  have hfields : ∀ fs : List (Field α),
      (fs.mapM fun x => do pure (⟨x.id, x.name, ← f x.type⟩ : Field β)) =
        (fs.zipWith (fun x b => ⟨x.id, x.name, b⟩)) <$> (fs.map (·.type)).mapM f := by
    intro fs
    induction fs with
    | nil => simp
    | cons x fs ih =>
      rw [List.mapM_cons, ih]
      simp [List.mapM_cons]
  have hmethods : ∀ ms : List (Method α),
      (ms.mapM fun x => do pure (⟨x.name, ← f x.type⟩ : Method β)) =
        (ms.zipWith (fun x b => ⟨x.name, b⟩)) <$> (ms.map (·.type)).mapM f := by
    intro ms
    induction ms with
    | nil => simp
    | cons x ms ih =>
      rw [List.mapM_cons, ih]
      simp [List.mapM_cons]
  have hsplit : ∀ (as as' : List α) (g : List β → List β → Composite β),
      (do pure (g (← as.mapM f) (← as'.mapM f))) =
        (fun bs => g (bs.take as.length) (bs.drop as.length)) <$> (as ++ as').mapM f := by
    intro as
    induction as with
    | nil => simp
    | cons a as ih =>
      intro as' g
      simp only [List.cons_append, List.mapM_cons, List.length_cons, bind_assoc, pure_bind,
        map_bind, map_pure, List.take_succ_cons, List.drop_succ_cons]
      congr 1
      funext b
      simpa using ih as' fun bs bs' => g (b :: bs) bs'
  cases c with
  | opt t | vec t => simp [mapM, members, refill]
  | record fs | variant fs =>
    rw [mapM, hfields]
    simp only [bind_pure_comp, Functor.map_map]
    rfl
  | func args results modes =>
    simpa [mapM, members, refill] using hsplit args results fun ts rs => func ts rs modes
  | service ms =>
    rw [mapM, hmethods]
    simp only [bind_pure_comp, Functor.map_map]
    rfl
  | future opcode payload => simp [mapM, members, refill]

end Refill

end Composite

theorem except_mapM_eq_ok {f : α → Except ε β} {as : List α} {bs : List β} :
    as.mapM f = .ok bs ↔ List.Forall₂ (fun a b => f a = .ok b) as bs := by
  induction as generalizing bs with
  | nil => cases bs <;> simp [pure, Except.pure]
  | cons a as ih =>
    rw [List.mapM_cons]
    cases hb : f a with
    | error e => cases bs <;> simp [hb, bind, Except.bind]
    | ok b =>
      cases hbs : as.mapM f with
      | error e =>
        have hnot : ∀ bs, ¬ List.Forall₂ (fun a b => f a = .ok b) as bs := fun bs h => by
          rw [hbs] at ih
          simpa using ih.mpr h
        cases bs <;> simp [hb, hnot, bind, Except.bind]
      | ok bs' =>
        rw [hbs] at ih
        cases bs <;> simp [hb, ← ih, bind, Except.bind, pure, Except.pure]

theorem except_bind_ok {x : Except ε α} {f : α → Except ε β} {a : α} {r : Except ε β}
    (hx : x = .ok a) (hf : f a = r) : x >>= f = r := by
  rw [hx]
  exact hf

/-- A step that returns what the next one returns on. -/
theorem except_bind_returns {x : Except ε α} {f : α → Except ε β} {I : α → Prop} {J : β → Prop}
    (hx : ∃ a, x = .ok a ∧ I a) (hf : ∀ a, x = .ok a → I a → ∃ b, f a = .ok b ∧ J b) :
    ∃ b, x >>= f = .ok b ∧ J b := by
  obtain ⟨a, ha, hI⟩ := hx
  obtain ⟨b, hb, hJ⟩ := hf a ha hI
  exact ⟨b, except_bind_ok ha hb, hJ⟩

theorem except_bind_eq_ok {x : Except ε α} {f : α → Except ε β} {b : β} :
    x >>= f = .ok b ↔ ∃ a, x = .ok a ∧ f a = .ok b := by
  cases x <;> simp [bind, Except.bind]

theorem except_map_eq_ok {x : Except ε α} {f : α → β} {b : β} :
    x.map f = .ok b ↔ ∃ a, x = .ok a ∧ f a = b := by
  cases x <;> simp [Except.map]

/-- A fold none of whose steps fails comes to its end, where what every step preserves holds. -/
theorem except_foldlM_returns {f : σ → α → Except ε σ} {I : σ → Prop} (as : List α)
    (hstep : ∀ a ∈ as, ∀ s, I s → ∃ s', f s a = .ok s' ∧ I s') {s : σ} (hstart : I s) :
    ∃ s', as.foldlM f s = .ok s' ∧ I s' := by
  induction as generalizing s with
  | nil => exact ⟨s, rfl, hstart⟩
  | cons a as ih =>
    obtain ⟨s₁, hs₁, h₁⟩ := hstep a List.mem_cons_self s hstart
    obtain ⟨s', hs', h'⟩ := ih (fun b hb => hstep b (List.mem_cons_of_mem _ hb)) h₁
    exact ⟨s', by rw [List.foldlM_cons, hs₁]; exact hs', h'⟩

/-- What every step of a fold preserves holds at its end. -/
theorem except_foldlM_invariant {f : σ → α → Except ε σ} {I : σ → Prop} {as : List α}
    (hstep : ∀ a ∈ as, ∀ s s', I s → f s a = .ok s' → I s') {s s' : σ} (h : as.foldlM f s = .ok s')
    (hstart : I s) : I s' := by
  induction as generalizing s with
  | nil =>
    cases h
    exact hstart
  | cons a as ih =>
    rw [List.foldlM_cons] at h
    cases hs₁ : f s a with
    | error e =>
      rw [hs₁] at h
      cases h
    | ok s₁ =>
      rw [hs₁] at h
      exact ih (fun b hb => hstep b (List.mem_cons_of_mem _ hb)) h
        (hstep a List.mem_cons_self s s₁ hstart hs₁)

inductive Steps (f : α → StateT σ (Except ε) β) : σ → List α → List β → σ → Prop
  | nil {s} : Steps f s [] [] s
  | cons {s s' s'' a b as bs} :
      f a s = .ok (b, s') → Steps f s' as bs s'' → Steps f s (a :: as) (b :: bs) s''

section Steps
variable {f : α → StateT σ (Except ε) β} {as : List α} {bs : List β} {s s' : σ} {e : ε}

theorem Steps.length_eq (h : Steps f s as bs s') : as.length = bs.length := by
  induction h with
  | nil => rfl
  | cons _ _ ih => rw [List.length_cons, List.length_cons, ih]

theorem steps_of_mapM (h : as.mapM f s = .ok (bs, s')) : Steps f s as bs s' := by
  induction as generalizing bs s with
  | nil =>
    cases h
    exact .nil
  | cons a as ih =>
    rw [List.mapM_cons] at h
    simp only [bind, StateT.bind, Except.bind] at h
    split at h
    · cases h
    · rename_i r hb
      split at h
      · cases h
      · rename_i r' hbs
        cases h
        exact .cons hb (ih hbs)

theorem Steps.of_map {γ : Type} {g : β → γ} {cs : List γ}
    (h : Steps (fun a => do pure (g (← f a))) s as cs s') :
    ∃ bs, Steps f s as bs s' ∧ cs = bs.map g := by
  induction h with
  | nil => exact ⟨[], .nil, rfl⟩
  | cons hb _ ih =>
    obtain ⟨bs, hsteps, rfl⟩ := ih
    simp only [bind, StateT.bind, Except.bind] at hb
    split at hb
    · cases hb
    · rename_i r hr
      cases hb
      exact ⟨r.1 :: bs, .cons hr hsteps, rfl⟩

theorem error_of_map {γ : Type} {g : β → γ} {x : StateT σ (Except ε) β}
    (h : (do pure (g (← x)) : StateT σ (Except ε) γ) s = .error e) : x s = .error e := by
  simp only [bind, StateT.bind, Except.bind] at h
  split at h
  · rename_i e' he
    cases h
    exact he
  · cases h

/-- Images of the first numbers, computed through states that are known. -/
theorem mapM_range_ok {f : Nat → StateT σ (Except ε) β} {state : Nat → σ} {b : Nat → β} {n : Nat}
    (h : ∀ k < n, f k (state k) = .ok (b k, state (k + 1))) :
    (List.range n).mapM f (state 0) = .ok ((List.range n).map b, state n) := by
  induction n with
  | zero => rfl
  | succ n ih =>
    have hfirst := ih fun k hk => h k (Nat.lt_succ_of_lt hk)
    have hlast := h n (Nat.lt_succ_self n)
    rw [List.range_succ, List.mapM_append, List.map_append]
    simp only [bind, StateT.bind, Except.bind, hfirst, List.mapM_cons, List.mapM_nil, hlast]
    rfl

theorem exists_error_of_mapM (h : as.mapM f s = .error e) : ∃ a ∈ as, ∃ s', f a s' = .error e := by
  induction as generalizing s with
  | nil => cases h
  | cons a as ih =>
    rw [List.mapM_cons] at h
    simp only [bind, StateT.bind, Except.bind] at h
    split at h
    · rename_i e' hb
      cases h
      exact ⟨a, List.mem_cons_self, s, hb⟩
    · split at h
      · rename_i e' hbs
        cases h
        obtain ⟨a', ha', hrest⟩ := ih hbs
        exact ⟨a', List.mem_cons_of_mem _ ha', hrest⟩
      · cases h

/-- A loop ends if each round does, from every state in which its invariant holds of the items that
came before. -/
theorem exists_mapM_eq_ok {I : List α → σ → Prop} (hstart : I [] s)
    (hstep : ∀ before a after s, as = before ++ a :: after → I before s →
      ∃ b s', f a s = .ok (b, s') ∧ I (before ++ [a]) s') :
    ∃ bs s', as.mapM f s = .ok (bs, s') ∧ I as s' := by
  have hrest : ∀ after before s, as = before ++ after → I before s →
      ∃ bs s', after.mapM f s = .ok (bs, s') ∧ I as s' := by
    intro after
    induction after with
    | nil =>
      intro before s has hI
      rw [List.append_nil] at has
      exact ⟨[], s, rfl, has ▸ hI⟩
    | cons a after ih =>
      intro before s has hI
      obtain ⟨b, s₁, hb, hI₁⟩ := hstep before a after s has hI
      obtain ⟨bs, s₂, hbs, hI₂⟩ := ih (before ++ [a]) s₁ (by simpa using has) hI₁
      refine ⟨b :: bs, s₂, ?_, hI₂⟩
      rw [List.mapM_cons]
      simp only [bind, StateT.bind, Except.bind, hb, hbs]
      rfl
  exact hrest as [] s rfl hstart

end Steps

namespace Composite

theorem except_mapM_eq_ok [Inhabited β] {f : α → Except ε β} {c : Composite α} {d : Composite β} :
    c.mapM f = .ok d ↔ ∃ bs, List.Forall₂ (fun a b => f a = .ok b) c.members bs ∧ d = c.refill bs := by
  rw [mapM_eq]
  cases h : c.members.mapM f with
  | error e =>
    simp only [Functor.map, Except.map, reduceCtorEq, false_iff, not_exists, not_and]
    intro bs hbs
    simp [Didl.except_mapM_eq_ok.mpr hbs] at h
  | ok bs =>
    simp only [Functor.map, Except.map, Except.ok.injEq, ← Didl.except_mapM_eq_ok, h]
    exact ⟨fun hd => ⟨bs, rfl, hd.symm⟩, fun ⟨bs', hbs, hd⟩ => by rw [hd, hbs]⟩

section Results
variable [Inhabited β] {f g : α → Except ε β} {c : Composite α} {d : Composite β}

theorem rel_of_mapM (h : c.mapM f = .ok d) : c.Rel (fun a b => f a = .ok b) d := by
  obtain ⟨bs, hbs, rfl⟩ := except_mapM_eq_ok.mp h
  exact refill_rel hbs

theorem mapM_returns (h : ∀ a ∈ c.members, ∃ b, f a = .ok b) : ∃ d, c.mapM f = .ok d := by
  obtain ⟨bs, hbs⟩ := exists_forall₂ h
  exact ⟨_, except_mapM_eq_ok.mpr ⟨bs, hbs, rfl⟩⟩

/-- What one map gives the other one gives, where it does so for each member. -/
theorem mapM_mono (h : c.mapM f = .ok d) (hfg : ∀ a ∈ c.members, ∀ b, f a = .ok b → g a = .ok b) :
    c.mapM g = .ok d := by
  obtain ⟨bs, hbs, rfl⟩ := except_mapM_eq_ok.mp h
  refine except_mapM_eq_ok.mpr ⟨bs, ?_, rfl⟩
  exact ((List.forall₂_and_left _ _).mpr ⟨hfg, hbs⟩).imp fun _ _ ⟨himp, hb⟩ => himp _ hb

end Results

variable [Inhabited β] {f : α → StateT σ (Except ε) β} {c : Composite α} {d : Composite β}
  {s s' : σ} {e : ε}

theorem steps_of_mapM (h : c.mapM f s = .ok (d, s')) :
    ∃ bs, Steps f s c.members bs s' ∧ d = c.refill bs := by
  rw [mapM_eq] at h
  simp only [Functor.map, StateT.map, bind, Except.bind] at h
  split at h
  · cases h
  · rename_i r hbs
    cases h
    exact ⟨_, Didl.steps_of_mapM hbs, rfl⟩

theorem exists_mapM_eq_ok (h : ∃ bs s', c.members.mapM f s = .ok (bs, s')) :
    ∃ d s', c.mapM f s = .ok (d, s') := by
  obtain ⟨bs, s', hbs⟩ := h
  refine ⟨c.refill bs, s', ?_⟩
  rw [mapM_eq]
  simp only [Functor.map, StateT.map, bind, Except.bind, hbs]
  rfl

theorem exists_error_of_mapM (h : c.mapM f s = .error e) :
    ∃ a ∈ c.members, ∃ s', f a s' = .error e := by
  rw [mapM_eq] at h
  simp only [Functor.map, StateT.map, bind, Except.bind] at h
  split at h
  · rename_i e' hbs
    cases h
    exact Didl.exists_error_of_mapM hbs
  · cases h

end Composite

end Didl
