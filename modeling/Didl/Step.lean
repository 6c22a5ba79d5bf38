import Didl.Fault

namespace Didl

/-- What the step yields, or why it stopped, and the buffer as it left it. -/
def Step (σ α : Type) : Type := σ → Except Fault α × σ

namespace Step
variable {σ α β : Type}

def pure (a : α) : Step σ α := fun s => (.ok a, s)

def bind (x : Step σ α) (f : α → Step σ β) : Step σ β := fun s =>
  match x s with
  | (.ok a, s) => f a s
  | (.error e, s) => (.error e, s)

instance : Monad (Step σ) where
  pure := pure
  bind := bind

def fail (e : Fault) : Step σ α := fun s => (.error e, s)

def ofExcept (r : Except Fault α) : Step σ α := fun s => (r, s)

def orFail (x : Step σ α) (e : Fault) : Step σ α := fun s =>
  match x s with
  | (.error _, s) => (.error e, s)
  | r => r

/-- Takes the step `n` times and yields the results in order. The results so far are held
in reverse, so that a long run needs no stack. -/
def collect (step : Step σ α) : Nat → List α → Step σ (List α)
  | 0, done => fun s => (.ok done.reverse, s)
  | n + 1, done => fun s =>
    match step s with
    | (.ok a, s) => collect step n (a :: done) s
    | (.error e, s) => (.error e, s)

def times (n : Nat) (step : Step σ α) : Step σ (List α) := collect step n []

end Step

end Didl
