import Didl.Idl.Interface

namespace Didl.Idl

/-- Work that keeps the loader's record, also where it fails. -/
abbrev Loading (σ α : Type) : Type := ExceptT Failure (StateM σ) α

abbrev Loader (σ : Type) : Type := String → Loading σ String

def Loader.nothing : Loader Unit := fun path => throw (.imports (.noLoader path))

def Loader.ofList (texts : List (String × String)) : Loader (List String) := fun path => do
  modify (path :: ·)
  match texts.lookup path with
  | some text => return text
  | none => throw (.imports (.notLoaded path))

namespace Import
variable {σ : Type} (load : Loader σ)

/-- The definitions of a program and of all that it imports, `depth` bounding how deep imports
nest. `opened` holds the paths of the files that lead here, the outermost first, and `merged` the
paths of those that were merged before; the latter are given back extended. -/
def merge (depth : Nat) (opened merged : List String) (program : Program) :
    Loading σ (List Definition × List String) :=
  match depth with
  | 0 => throw (.imports .unending)
  | depth + 1 => do
    let (imported, merged) ← program.imports.foldlM (fun (imported, merged) i => do
      if opened.contains i.path then
        throw (.imports (.cycle (opened ++ [i.path])))
      else if merged.contains i.path then
        return (imported, merged)
      else
        let file ← liftM (Program.ofSource (← load i.path))
        let (definitions, merged) ← merge depth (opened ++ [i.path]) merged file
        return (imported ++ definitions, i.path :: merged)) ([], merged)
    return (imported ++ program.definitions, merged)

end Import

namespace Interface

def ofSourceWith {σ : Type} (load : Loader σ) (depth : Nat) (source : String) :
    Loading σ Interface := do
  let program ← liftM (Program.ofSource source)
  let (definitions, _) ← Import.merge load depth [] [] program
  liftM (Program.interface ⟨program.imports, definitions, program.actor⟩)

def ofSource (source : String) : Except Failure Interface :=
  ((ofSourceWith Loader.nothing 1 source).run.run ()).1

/-- Compiles source with the texts that its imports may name. Each nested import takes a text, so
the count of texts bounds how deep they nest. Gives also the paths that were asked for, in order. -/
def ofSources (texts : List (String × String)) (source : String) :
    Except Failure Interface × List String :=
  let (result, asked) :=
    (ofSourceWith (Loader.ofList texts) (texts.length + 1) source).run.run []
  (result, asked.reverse)

end Interface
end Didl.Idl
