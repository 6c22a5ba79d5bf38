import Mathlib
import Didl.Step

namespace Didl

theorem forM_eq_ok {ε α : Type} {f : α → Except ε PUnit} {as : List α} :
    as.forM f = .ok ⟨⟩ ↔ ∀ a ∈ as, f a = .ok ⟨⟩ := by
  induction as with
  | nil => simp [pure, Except.pure]
  | cons a as ih =>
    rw [List.forM_eq_forM, List.forM_cons, List.forall_mem_cons, ← ih]
    cases h : f a <;> simp [bind, Except.bind]

namespace Step
variable {σ α β : Type} {x : Step σ α} {f : α → Step σ β} {s s' s₁ : σ} {a : α} {b : β} {e : Fault}

@[simp] theorem pure_apply (a : α) (s : σ) : (Pure.pure a : Step σ α) s = (.ok a, s) := rfl

@[simp] theorem fail_apply (e : Fault) (s : σ) : (fail e : Step σ α) s = (.error e, s) := rfl

@[simp] theorem ofExcept_apply (r : Except Fault α) (s : σ) : ofExcept r s = (r, s) := rfl

@[simp] theorem ofExcept_ok_bind (a : α) (f : α → Step σ β) : ofExcept (.ok a) >>= f = f a := rfl

@[simp] theorem ofExcept_error_bind (e : Fault) (f : α → Step σ β) :
    ofExcept (.error e) >>= f = fail e := rfl

theorem bind_apply (x : Step σ α) (f : α → Step σ β) (s : σ) :
    (x >>= f) s = match x s with
      | (.ok a, s₁) => f a s₁
      | (.error e, s₁) => (.error e, s₁) := rfl

theorem bind_ok (h : x s = (.ok a, s₁)) : (x >>= f) s = f a s₁ := by
  rw [bind_apply, h]

theorem bind_error (h : x s = (.error e, s₁)) : (x >>= f) s = (.error e, s₁) := by
  rw [bind_apply, h]

theorem bind_assoc {γ : Type} (x : Step σ α) (f : α → Step σ β) (g : β → Step σ γ) :
    x >>= f >>= g = x >>= fun a => f a >>= g := by
  funext s
  simp only [bind_apply]
  rcases x s with ⟨_ | _, _⟩ <;> rfl

theorem map_bind {γ : Type} (x : Step σ α) (g : α → β) (f : β → Step σ γ) :
    (do f (g (← x))) = ((do return g (← x)) >>= f : Step σ γ) := by
  funext s
  simp only [bind_apply]
  rcases x s with ⟨_ | _, _⟩ <;> rfl

theorem bind_eq_ok : (x >>= f) s = (.ok b, s') ↔ ∃ a s₁, x s = (.ok a, s₁) ∧ f a s₁ = (.ok b, s') := by
  rw [bind_apply]
  cases hx : x s with
  | mk r s₁ =>
    cases r with
    | ok a => simp
    | error e => simp

theorem bind_eq_error : (x >>= f) s = (.error e, s') ↔
    x s = (.error e, s') ∨ ∃ a s₁, x s = (.ok a, s₁) ∧ f a s₁ = (.error e, s') := by
  rw [bind_apply]
  cases hx : x s with
  | mk r s₁ =>
    cases r with
    | ok a => simp
    | error e => simp

theorem ofExcept_eq_ok {r : Except Fault α} :
    ofExcept r s = (.ok a, s') ↔ r = .ok a ∧ s = s' := by
  simp [ofExcept]

theorem orFail_eq_ok : x.orFail e s = (.ok a, s') ↔ x s = (.ok a, s') := by
  unfold orFail
  split
  · rename_i e' s₁ he
    simp [he]
  · rfl

inductive Run (step : Step σ α) : σ → List α → σ → Prop
  | nil (t : σ) : Run step t [] t
  | cons {t t₁ t₂ : σ} {r : α} {rs : List α} :
      step t = (.ok r, t₁) → Run step t₁ rs t₂ → Run step t (r :: rs) t₂

theorem Run.forall_mem {step : Step σ α} {P : α → Prop} {as : List α} (h : Run step s as s')
    (hstep : ∀ s a s', step s = (.ok a, s') → P a) : ∀ a ∈ as, P a := by
  induction h with
  | nil => nofun
  | cons ha _ ih => exact List.forall_mem_cons.mpr ⟨hstep _ _ _ ha, ih⟩

theorem collect_succ (step : Step σ α) (n : Nat) (done : List α) :
    collect step (n + 1) done = step >>= fun a => collect step n (a :: done) := rfl

theorem collect_eq_ok {step : Step σ α} {n : Nat} {done as : List α} :
    collect step n done s = (.ok as, s') ↔
      ∃ more, more.length = n ∧ Run step s more s' ∧ as = done.reverse ++ more := by
  induction n generalizing done s with
  | zero =>
    simp only [collect, List.length_eq_zero_iff, Prod.mk.injEq, Except.ok.injEq]
    constructor
    · rintro ⟨rfl, rfl⟩
      exact ⟨[], rfl, .nil _, by simp⟩
    · rintro ⟨_, rfl, hrun, rfl⟩
      cases hrun
      simp
  | succ n ih =>
    rw [collect_succ, bind_eq_ok]
    simp only [ih]
    constructor
    · rintro ⟨a, s₁, ha, more, hlength, hrun, rfl⟩
      exact ⟨a :: more, by rw [List.length_cons, hlength], .cons ha hrun, by simp⟩
    · rintro ⟨more, hlength, hrun, rfl⟩
      cases hrun with
      | nil => cases hlength
      | cons ha hrun => exact ⟨_, _, ha, _, by simpa using hlength, hrun, by simp⟩

theorem times_eq_ok {step : Step σ α} {n : Nat} {as : List α} :
    times n step s = (.ok as, s') ↔ as.length = n ∧ Run step s as s' := by
  rw [times, collect_eq_ok]
  constructor
  · rintro ⟨more, hlength, hrun, rfl⟩
    exact ⟨by simpa using hlength, by simpa using hrun⟩
  · rintro ⟨hlength, hrun⟩
    exact ⟨as, hlength, hrun, by simp⟩

end Step

end Didl
