import Didl.Prelude.Entry
import Didl.Proofs.Steps

namespace Didl.Entry
variable {κ α : Type}

/-- Reads `count` more items, each as a key and a code. A key that is not above the one that was
read last is a fault. -/
def readAscending [LE κ] [DecidableLE κ] (readKey : Reader κ) (item : κ → Int → α) (key : α → κ)
    (fault : κ → TableFault) : Nat → List α → Reader (List α)
  | 0, done => pure done.reverse
  | count + 1, done => do
    let k ← readKey
    match done with
    | last :: _ =>
      if k ≤ key last then Step.fail (.badTable (fault k))
      else readAscending readKey item key fault count (item k (← readCode) :: done)
    | [] => readAscending readKey item key fault count [item k (← readCode)]

def readFieldId : Reader UInt32 := do
  let id := (← Reader.varUInt64).toNat
  if id < 4294967296 then pure (UInt32.ofNat id) else Step.fail (.badTable .fieldIdTooWide)

theorem readFieldId_bind {β : Type} (f : UInt32 → Reader β) : readFieldId >>= f = (do
    let id := (← Reader.varUInt64).toNat
    if id < 4294967296 then f (UInt32.ofNat id) else Step.fail (.badTable .fieldIdTooWide)) := by
  rw [readFieldId, Step.bind_assoc]
  refine bind_congr fun word => ?_
  dsimp only
  split <;> rfl

theorem readFieldsAfter_eq (count : Nat) (done : List (Field Int)) : readFieldsAfter count done =
    readAscending readFieldId (fun id code => ⟨id, none, code⟩) (·.id) .fieldOutOfOrder count done := by
  induction count generalizing done with
  | zero => rfl
  | succ count ih =>
    rw [readFieldsAfter, readAscending, readFieldId_bind]
    refine bind_congr fun word => ?_
    dsimp only
    split
    · cases done with
      | nil => exact bind_congr fun code => ih _
      | cons last done =>
        dsimp only
        split
        · rfl
        · exact bind_congr fun code => ih _
    · rfl

theorem readMethodsAfter_eq (count : Nat) (done : List (Method Int)) : readMethodsAfter count done =
    readAscending Reader.text (fun name code => ⟨name, code⟩) (·.name) .methodOutOfOrder count done := by
  induction count generalizing done with
  | zero => rfl
  | succ count ih =>
    rw [readMethodsAfter, readAscending]
    refine bind_congr fun name => ?_
    cases done with
    | nil => exact bind_congr fun code => ih _
    | cons last done =>
      dsimp only
      split
      · rfl
      · exact bind_congr fun code => ih _

theorem readAscending_ascends [LE κ] [LT κ] [DecidableLE κ] [Std.IsLinearOrder κ]
    [Std.LawfulOrderLT κ] {readKey : Reader κ} {item : κ → Int → α} {key : α → κ}
    {fault : κ → TableFault} (hkey : ∀ k code, key (item k code) = k) {count : Nat}
    {done xs : List α} {bytes rest : List UInt8} (hdone : done.Pairwise fun x y => key y < key x)
    (h : readAscending readKey item key fault count done bytes = (.ok xs, rest)) :
    xs.Pairwise fun x y => key x < key y := by
  induction count generalizing done bytes with
  | zero =>
    cases h
    exact List.pairwise_reverse.mpr hdone
  | succ count ih =>
    rw [readAscending] at h
    obtain ⟨k, bytes₁, _, h⟩ := Step.bind_eq_ok.mp h
    cases done with
    | nil =>
      obtain ⟨code, bytes₂, _, h⟩ := Step.bind_eq_ok.mp h
      exact ih (List.pairwise_singleton _ _) h
    | cons last done =>
      dsimp only at h
      split at h
      · cases h
      · rename_i hlt
        obtain ⟨code, bytes₂, _, h⟩ := Step.bind_eq_ok.mp h
        refine ih (List.pairwise_cons.mpr ⟨fun x hx => ?_, hdone⟩) h
        rw [hkey]
        have hlast := Std.not_le.mp hlt
        rcases List.mem_cons.mp hx with rfl | hx
        · exact hlast
        · exact Std.lt_trans (List.rel_of_pairwise_cons hdone hx) hlast

end Didl.Entry
