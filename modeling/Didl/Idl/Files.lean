import Didl.Idl.Import

namespace Didl.Idl

namespace FilePath

def cut : List Char → List Char × List (List Char)
  | [] => ([], [])
  | c :: cs =>
    let (first, others) := cut cs
    if c = '/' then ([], first :: others) else (c :: first, others)

def segments (path : String) : List String :=
  let (first, others) := cut path.toList
  (first :: others).map String.ofList

def isIdle (segment : String) : Bool := segment == "" || segment == "."

def steps (path : String) : List String := (segments path).filter (!isIdle ·)

def isRelative (path : String) : Bool :=
  (segments path).head?.all (· != "") && (segments path).getLast?.all (!isIdle ·)

end FilePath

/-- Files with their texts, each at the end of a way from the outermost folder. -/
structure FileTree where
  files : List (List String × String)

namespace FileTree

def ofList (files : List (String × String)) : FileTree :=
  ⟨files.map fun (path, text) => (FilePath.steps path, text)⟩

def isFolder (tree : FileTree) (folder : List String) : Bool :=
  tree.files.any fun (path, _) => folder.isPrefixOf path && path.length > folder.length

/-- The text of the file to which steps lead from a folder. A step of two dots leads to the folder
around. -/
def walk (tree : FileTree) (folder : List String) : List String → Option String
  | [] => none
  | step :: steps =>
    if step = ".." then
      if folder = [] then none else walk tree folder.dropLast steps
    else
      match steps with
      | [] => tree.files.lookup (folder ++ [step])
      | _ => if tree.isFolder (folder ++ [step]) then walk tree (folder ++ [step]) steps else none

def find? (tree : FileTree) (folder : List String) (path : String) :
    Option (List String × String) :=
  if FilePath.isRelative path then
    let steps := folder ++ FilePath.steps path
    (tree.walk [] steps).map fun text => (steps, text)
  else none

/-- The folders in which imports are looked for, the latest first, and the files found so far. -/
structure Search where
  folders : List (List String)
  found : List (List String)

def loader (tree : FileTree) : Loader Search := fun path => do
  let search ← get
  match search.folders.findSome? fun folder => tree.find? folder path with
  | none => throw (.imports (.notFound path))
  | some (steps, text) =>
    unless search.found.contains steps do
      set (Search.mk (steps.dropLast :: search.folders) (steps :: search.found))
    return text

def size (tree : FileTree) : Nat := tree.files.foldl (fun n (_, text) => n + text.length) 0

def interface (tree : FileTree) (path : String) : Except Failure Interface :=
  match tree.find? [] path with
  | none => .error .io
  | some (steps, text) =>
    let work := Interface.ofSourceWith tree.loader (tree.size + 1) text
    (work.run.run ⟨[steps.dropLast], []⟩).1

end FileTree
end Didl.Idl
