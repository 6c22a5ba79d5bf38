namespace Didl

variable {α κ : Type} [LT κ] [DecidableLT κ]

def insertBy (key : α → κ) (a : α) : List α → List α
  | [] => [a]
  | b :: bs => if key b < key a then b :: insertBy key a bs else a :: b :: bs

def sortBy (key : α → κ) (as : List α) : List α :=
  as.foldr (insertBy key) []

abbrev Assoc (κ α : Type) : Type := List (κ × α)

namespace Assoc

def insert (k : κ) (a : α) : Assoc κ α → Assoc κ α
  | [] => [(k, a)]
  | (k', a') :: rest =>
    if k' < k then (k', a') :: insert k a rest
    else if k < k' then (k, a) :: (k', a') :: rest
    else (k, a) :: rest

/-- Binds pairs in order: of two with one key, the later stays. -/
def ofList (pairs : List (κ × α)) : Assoc κ α :=
  pairs.foldl (fun map p => insert p.1 p.2 map) []

end Assoc

end Didl
