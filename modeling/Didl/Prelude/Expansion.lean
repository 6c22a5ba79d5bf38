import Didl.Prelude.Entry

namespace Didl

/-- The most types that a member may hold and still be copied. -/
def maxInlined : Nat := 4096

def entryLabel (index : Nat) : String := "table" ++ toString index

/-- What was rebuilt so far: entries with the count of types that they hold, and the entries that
are referred to by name. -/
structure Rebuilt where
  done : Array (Option (Composite Ty × Nat))
  labelled : Array Bool

namespace Rebuilt

def empty (count : Nat) : Rebuilt := ⟨Array.replicate count none, Array.replicate count false⟩

abbrev M : Type → Type := StateT Rebuilt (Except Fault)

def refer (index : Nat) : M (Ty × Nat) := fun s =>
  .ok ((.named (entryLabel index), 1), { s with labelled := s.labelled.setIfInBounds index true })

/-- The type that a member's code stands for, within the entries of `path`. A member that leads back
to one of these becomes a name; so does one that has grown too large to be copied. -/
def member (expand : List Nat → Nat → M (Composite Ty × Nat)) (path : List Nat) (code : Int) :
    M (Ty × Nat) :=
  if code < 0 then
    match Prim.ofOpcode? code with
    | some p => pure (.prim p, 1)
    | none => throw (.unknownType code)
  else
    let index := code.toNat
    if path.contains index then refer index
    else do
      let (c, nodes) ← expand path index
      if nodes > maxInlined then refer index else pure (.composite c, nodes)

/-- Rebuilds an entry once, at most `limit` entries inside each other. -/
def expand (raw : Array Entry) : Nat → List Nat → Nat → M (Composite Ty × Nat)
  | limit, path, index => do
    match (← get).done[index]?.join with
    | some known => pure known
    | none =>
      match limit, raw[index]? with
      | 0, _ => throw .tooDeep
      | _, none => throw (.unknownType index)
      | limit + 1, some entry =>
        let built ← entry.mapM (member (expand raw limit) (index :: path))
        let result := (built.map Prod.fst, built.members.foldl (fun n x => n + x.2) 1)
        modify fun s => { s with done := s.done.setIfInBounds index (some result) }
        pure result

end Rebuilt

end Didl
