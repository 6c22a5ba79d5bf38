import Didl.Idl.Files
import Didl.Proofs.Merging

namespace Didl.Idl

open Relation

abbrev PlacedFile : Type := List String × String

namespace PlacedFile

def folder (file : PlacedFile) : List String := file.1.dropLast

def Imports (file : PlacedFile) (path : String) : Prop :=
  ∃ program, Program.ofSource file.2 = .ok program ∧ ∃ i ∈ program.imports, i.path = path

end PlacedFile

theorem FilePath.steps_ne_nil {path : String} (h : isRelative path = true) : steps path ≠ [] := by
  intro hnil
  rw [isRelative, Bool.and_eq_true] at h
  have hne : segments path ≠ [] := List.cons_ne_nil _ _
  have hlast := h.2
  rw [List.getLast?_eq_some_getLast hne, Option.all_some] at hlast
  have hmem : (segments path).getLast hne ∈ steps path :=
    List.mem_filter.mpr ⟨List.getLast_mem hne, hlast⟩
  rw [hnil] at hmem
  cases hmem

namespace FileTree
variable (tree : FileTree)

def reach? (folder : List String) : List String → Option PlacedFile
  | [] => none
  | step :: steps =>
    if step = ".." then
      if folder = [] then none else reach? folder.dropLast steps
    else
      match steps with
      | [] => (tree.files.lookup (folder ++ [step])).map (folder ++ [step], ·)
      | _ => if tree.isFolder (folder ++ [step]) then reach? (folder ++ [step]) steps else none

def named? (folder : List String) (path : String) : Option PlacedFile :=
  if FilePath.isRelative path then tree.reach? folder (FilePath.steps path) else none

/-- One import of a file: the file that it names from the folder of the importing file is merged
with all that it imports, unless it was merged before. `opened` holds the files that lead here with
the paths that name them, `merged` the places of the files that were merged before. -/
def relativeOne
    (next : List (String × List String) → List (List String) → PlacedFile → Program →
      Except Failure (List Definition × List (List String)))
    (opened : List (String × List String)) (file : PlacedFile) :
    List Definition × List (List String) → Import →
      Except Failure (List Definition × List (List String)) :=
  fun (imported, merged) i => do
    match tree.named? file.folder i.path with
    | none => throw (.imports (.notFound i.path))
    | some found =>
      if (opened.map Prod.snd).contains found.1 then
        throw (.imports (.cycle (opened.map Prod.fst ++ [i.path])))
      else if merged.contains found.1 then
        return (imported, merged)
      else
        let program ← Program.ofSource found.2
        let (definitions, merged) ← next (opened ++ [(i.path, found.1)]) merged found program
        return (imported ++ definitions, found.1 :: merged)

def mergeRelative (depth : Nat) (opened : List (String × List String))
    (merged : List (List String)) (file : PlacedFile) (program : Program) :
    Except Failure (List Definition × List (List String)) :=
  match depth with
  | 0 => throw (.imports .unending)
  | depth + 1 => do
    let (imported, merged) ← program.imports.foldlM
      (tree.relativeOne (mergeRelative depth) opened file) ([], merged)
    return (imported ++ program.definitions, merged)

/-- Compiles the file to which a path leads, each import naming a neighbour of the file that it
stands in. -/
def relativeInterface (path : String) : Except Failure Interface :=
  match tree.named? [] path with
  | none => .error .io
  | some file => do
    let program ← Program.ofSource file.2
    let (definitions, _) ← tree.mergeRelative (tree.size + 1) [] [] file program
    Program.interface ⟨program.imports, definitions, program.actor⟩

variable {tree} {folder written : List String} {path : String} {file found : PlacedFile}

theorem walk_eq (steps : List String) :
    tree.walk folder steps = (tree.reach? folder steps).map Prod.snd := by
  fun_induction reach? tree folder steps <;> simp_all [walk]

theorem reach?_lookup {steps : List String} (h : tree.reach? folder steps = some found) :
    tree.files.lookup found.1 = some found.2 := by
  fun_induction reach? tree folder steps <;> simp_all
  obtain ⟨text, htext, rfl⟩ := h
  exact htext

/-- A way as it is written leads to a folder: going on from its end is going on from there. -/
def Arrives (tree : FileTree) (written folder : List String) : Prop :=
  ∀ steps, steps ≠ [] → tree.reach? [] (written ++ steps) = tree.reach? folder steps

theorem reach?_up {steps : List String} (hfolder : folder ≠ []) :
    tree.reach? folder (".." :: steps) = tree.reach? folder.dropLast steps := by
  cases steps <;> simp [reach?, hfolder]

theorem reach?_into {step : String} {steps : List String} (hstep : step ≠ "..")
    (hsteps : steps ≠ []) : tree.reach? folder (step :: steps) =
      if tree.isFolder (folder ++ [step]) then tree.reach? (folder ++ [step]) steps else none := by
  cases steps with
  | nil => exact (hsteps rfl).elim
  | cons next steps => simp [reach?, hstep]

/-- The way to a file, without its last step, leads to the folder of the file. -/
theorem reach?_dropLast {steps more : List String} (h : tree.reach? folder steps = some found)
    (hmore : more ≠ []) :
    tree.reach? folder (steps.dropLast ++ more) = tree.reach? found.folder more := by
  have hnil {folder : List String} : tree.reach? folder [] ≠ some found := by simp [reach?]
  fun_induction reach? tree folder steps with
  | case1 | case2 | case6 => cases h
  | case3 folder steps hfolder ih =>
    cases steps with
    | nil => exact (hnil h).elim
    | cons step steps =>
      rw [List.dropLast_cons_cons, List.cons_append, reach?_up hfolder]
      exact ih h
  | case4 folder step hstep =>
    obtain ⟨text, _, rfl⟩ := Option.map_eq_some_iff.mp h
    rw [PlacedFile.folder, List.dropLast_concat]
    rfl
  | case5 folder step steps hstep hinto hsteps ih =>
    cases steps with
    | nil => exact (hnil h).elim
    | cons next steps =>
      rw [List.dropLast_cons_cons, List.cons_append,
        reach?_into hstep (List.append_ne_nil_of_right_ne_nil _ hmore), if_pos hinto]
      exact ih h

theorem arrives_dropLast (h : tree.reach? [] written = some found) :
    Arrives tree written.dropLast found.folder :=
  fun _ => reach?_dropLast h

/-- What an import names from a written folder is what it names from where that leads. -/
theorem find?_of_arrives (h : Arrives tree written folder) (path : String) :
    match tree.named? folder path with
    | none => tree.find? written path = none
    | some found => ∃ steps, tree.find? written path = some (steps, found.2) ∧
        Arrives tree steps.dropLast found.folder := by
  by_cases hrelative : FilePath.isRelative path
  · have hfind : tree.find? written path = (tree.reach? folder (FilePath.steps path)).map fun found =>
        (written ++ FilePath.steps path, found.2) := by
      rw [find?, if_pos hrelative, ← h _ (FilePath.steps_ne_nil hrelative)]
      dsimp only
      rw [walk_eq, Option.map_map]
      rfl
    rw [named?, if_pos hrelative, hfind]
    cases hreach : tree.reach? folder (FilePath.steps path) with
    | none => rfl
    | some found =>
      rw [← h _ (FilePath.steps_ne_nil hrelative)] at hreach
      exact ⟨_, rfl, arrives_dropLast hreach⟩
  · rw [named?, find?, if_neg hrelative, if_neg hrelative]

theorem named?_lookup (h : tree.named? folder path = some found) :
    tree.files.lookup found.1 = some found.2 := by
  unfold named? at h
  split at h
  · exact reach?_lookup h
  · cases h

def Leads (tree : FileTree) (file found : PlacedFile) : Prop :=
  ∃ path, file.Imports path ∧ tree.named? file.folder path = some found

variable {start : PlacedFile}

def Reached (tree : FileTree) (start file : PlacedFile) : Prop :=
  ReflTransGen tree.Leads start file

/-- Among the files that a file reaches, a text that is imported names one file at most, whatever
folder it is read from, and a file is imported by one text. -/
structure Unambiguous (tree : FileTree) (start : PlacedFile) : Prop where
  same : ∀ {file other path found}, tree.Reached start file → tree.Reached start other →
    file.Imports path → tree.named? other.folder path = some found →
      tree.named? file.folder path = some found
  once : ∀ {file other path path' found}, tree.Reached start file → tree.Reached start other →
    file.Imports path → other.Imports path' → tree.named? file.folder path = some found →
      tree.named? other.folder path' = some found → path = path'

def Known (tree : FileTree) (start : PlacedFile) (entry : String × List String) : Prop :=
  ∃ file text, tree.Reached start file ∧ file.Imports entry.1 ∧
    tree.named? file.folder entry.1 = some (entry.2, text)

section
variable {entries : List (String × List String)}

theorem Unambiguous.contains_paths (h : tree.Unambiguous start)
    (hknown : ∀ entry ∈ entries, tree.Known start entry) (hfile : tree.Reached start file)
    (himports : file.Imports path) (hfound : tree.named? file.folder path = some found) :
    (entries.map Prod.fst).contains path = (entries.map Prod.snd).contains found.1 := by
  rw [Bool.eq_iff_iff, List.contains_iff_mem, List.contains_iff_mem]
  constructor
  · intro hmem
    obtain ⟨⟨_, place⟩, hentry, rfl⟩ := List.mem_map.mp hmem
    obtain ⟨other, text, hother, hpath, hnamed⟩ := hknown _ hentry
    cases hfound.symm.trans (h.same hfile hother himports hnamed)
    exact List.mem_map_of_mem hentry
  · intro hmem
    obtain ⟨⟨path', place⟩, hentry, hplace⟩ := List.mem_map.mp hmem
    obtain ⟨other, text, hother, hpath, hnamed⟩ := hknown _ hentry
    obtain rfl : place = found.1 := hplace
    have hnamed : tree.named? other.folder path' = some (found.1, text) := hnamed
    have htext : tree.files.lookup found.1 = some text := named?_lookup hnamed
    obtain rfl : text = found.2 := Option.some.inj (htext.symm.trans (named?_lookup hfound))
    rw [h.once hfile hother himports hpath hfound hnamed]
    exact List.mem_map_of_mem (f := Prod.fst) hentry

theorem Unambiguous.not_mem_paths (h : tree.Unambiguous start)
    (hknown : ∀ entry ∈ entries, tree.Known start entry) (hfile : tree.Reached start file)
    (himports : file.Imports path) (hnone : tree.named? file.folder path = none) :
    path ∉ entries.map Prod.fst := by
  intro hmem
  obtain ⟨⟨_, place⟩, hentry, rfl⟩ := List.mem_map.mp hmem
  obtain ⟨other, text, hother, hpath, hnamed⟩ := hknown _ hentry
  rw [h.same hfile hother himports hnamed] at hnone
  cases hnone

end

structure Sound (tree : FileTree) (start : PlacedFile) (search : Search) : Prop where
  folders : ∀ written ∈ search.folders,
    ∃ file, tree.Reached start file ∧ Arrives tree written file.folder
  found : ∀ steps ∈ search.found, steps.dropLast ∈ search.folders

def Covers (tree : FileTree) (search : Search) (file : PlacedFile) : Prop :=
  ∃ written ∈ search.folders, Arrives tree written file.folder

/-- The first file that the search finds is the one that the import names from where it stands. -/
theorem Unambiguous.searches (h : tree.Unambiguous start) {search : Search}
    (hsound : tree.Sound start search) (hcovers : tree.Covers search file)
    (hfile : tree.Reached start file) (himports : file.Imports path) :
    match tree.named? file.folder path with
    | none => (search.folders.findSome? fun folder => tree.find? folder path) = none
    | some found => ∃ steps,
        (search.folders.findSome? fun folder => tree.find? folder path) = some (steps, found.2) ∧
          Arrives tree steps.dropLast found.folder := by
  cases hsome : search.folders.findSome? fun folder => tree.find? folder path with
  | some hit =>
    obtain ⟨written, hwritten, hhit⟩ := List.exists_of_findSome?_eq_some hsome
    obtain ⟨other, hother, harrives⟩ := hsound.folders written hwritten
    have hfound := find?_of_arrives harrives path
    cases hnamed : tree.named? other.folder path with
    | none =>
      rw [hnamed] at hfound
      cases hhit.symm.trans hfound
    | some found =>
      rw [hnamed] at hfound
      obtain ⟨steps, hsteps, hfolder⟩ := hfound
      cases hhit.symm.trans hsteps
      rw [h.same hfile hother himports hnamed]
      exact ⟨steps, rfl, hfolder⟩
  | none =>
    obtain ⟨written, hwritten, harrives⟩ := hcovers
    have hnot := List.findSome?_eq_none_iff.mp hsome written hwritten
    have hfound := find?_of_arrives harrives path
    cases hnamed : tree.named? file.folder path with
    | none => rfl
    | some found =>
      rw [hnamed] at hfound
      obtain ⟨steps, hsteps, _⟩ := hfound
      cases hnot.symm.trans hsteps

def Agrees {α β : Type} (work : Loading Search α) (result : Except Failure β) (search : Search)
    (P : α → β → Search → Prop) : Prop :=
  match work.run.run search, result with
  | (.ok a, search'), .ok b => P a b search'
  | (.error e, _), .error e' => e = e'
  | _, _ => False

namespace Agrees
variable {α β γ δ : Type} {search : Search} {P : α → β → Search → Prop}
  {Q : γ → δ → Search → Prop}

theorem pure {a : α} {b : β} (h : P a b search) :
    Agrees (Pure.pure a) (Pure.pure b) search P := h

theorem throw (e : Failure) :
    Agrees (MonadExcept.throw e : Loading Search α) (MonadExcept.throw e) search P := rfl

theorem lift (r : Except Failure α) : Agrees (liftM r) r search fun a b _ => a = b := by
  cases r <;> rfl

/-- A result that does not hang on the search. -/
theorem ofExcept {r : Except Failure α} {f : α → Loading Search γ} {g : α → Except Failure δ}
    (h : ∀ a, r = .ok a → Agrees (f a) (g a) search Q) : Agrees (liftM r >>= f) (r >>= g) search Q := by
  cases r with
  | error e => rfl
  | ok a => exact h a rfl

theorem bind {work : Loading Search α} {result : Except Failure β} {f : α → Loading Search γ}
    {g : β → Except Failure δ} (h : Agrees work result search P)
    (hnext : ∀ a b search', P a b search' → Agrees (f a) (g b) search' Q) :
    Agrees (work >>= f) (result >>= g) search Q := by
  unfold Agrees at h
  rcases hrun : work.run.run search with ⟨e | a, search'⟩ <;> rw [hrun] at h
  · cases result with
    | error e' =>
      unfold Agrees
      rw [ExceptT.run_bind, StateT.run_bind, hrun]
      exact h
    | ok b => exact h.elim
  · cases result with
    | error e' => exact h.elim
    | ok b =>
      unfold Agrees
      rw [ExceptT.run_bind, StateT.run_bind, hrun]
      exact hnext a b search' h

theorem ite {c : Prop} [Decidable c] {x y : Loading Search α} {x' y' : Except Failure β}
    (hx : c → Agrees x x' search P) (hy : ¬ c → Agrees y y' search P) :
    Agrees (if c then x else y) (if c then x' else y') search P := by
  by_cases hc : c
  · rw [if_pos hc, if_pos hc]
    exact hx hc
  · rw [if_neg hc, if_neg hc]
    exact hy hc

/-- Work that goes ahead alone. -/
theorem ahead {work : Loading Search α} {f : α → Loading Search γ} {result : Except Failure δ}
    {a : α} {search' : Search} (hrun : work.run.run search = (.ok a, search'))
    (h : Agrees (f a) result search' Q) : Agrees (work >>= f) result search Q := by
  unfold Agrees
  rw [ExceptT.run_bind, StateT.run_bind, hrun]
  exact h

theorem failed {work : Loading Search α} {f : α → Loading Search γ} {e : Failure}
    {search' : Search} (hrun : work.run.run search = (.error e, search')) :
    Agrees (work >>= f) (MonadExcept.throw e) search Q := by
  unfold Agrees
  rw [ExceptT.run_bind, StateT.run_bind, hrun]
  rfl

theorem result_eq {work : Loading Search α} {result : Except Failure α}
    (h : Agrees work result search fun a b _ => a = b) : (work.run.run search).1 = result := by
  unfold Agrees at h
  rcases hrun : work.run.run search with ⟨e | a, search'⟩ <;> rw [hrun] at h <;> cases result with
  | error e' => first | exact congrArg _ h | exact h.elim
  | ok b => first | exact congrArg _ h | exact h.elim

theorem foldlM {ι : Type} {f : α → ι → Loading Search α} {g : β → ι → Except Failure β}
    (items : List ι) {a : α} {b : β} (h : P a b search)
    (hstep : ∀ i ∈ items, ∀ a b search, P a b search → Agrees (f a i) (g b i) search P) :
    Agrees (items.foldlM f a) (items.foldlM g b) search P := by
  induction items generalizing a b search with
  | nil => exact .pure h
  | cons i items ih =>
    obtain ⟨hfirst, hrest⟩ := List.forall_mem_cons.mp hstep
    exact (hfirst a b search h).bind fun a' b' search' h' => ih h' hrest

end Agrees

/-- What was merged by its texts and what was merged by its places, at some moment of the search:
both are known, and no folder was forgotten that an earlier search had. -/
structure Matches (tree : FileTree) (start : PlacedFile) (earlier : Search)
    (r : List Definition × List String) (r' : List Definition × List (List String))
    (search : Search) : Prop where
  definitions : r.1 = r'.1
  merged : ∃ entries : List (String × List String), (∀ entry ∈ entries, tree.Known start entry) ∧
    r.2 = entries.map Prod.fst ∧ r'.2 = entries.map Prod.snd
  sound : tree.Sound start search
  grown : earlier.folders ⊆ search.folders

theorem loader_run (search : Search) (path : String) : (tree.loader path).run.run search =
    match search.folders.findSome? fun folder => tree.find? folder path with
    | none => (.error (.imports (.notFound path)), search)
    | some (steps, text) => (.ok text, if search.found.contains steps then search else
        ⟨steps.dropLast :: search.folders, steps :: search.found⟩) := by
  have hget : (get : Loading Search Search).run.run search = (.ok search, search) := rfl
  unfold loader
  rw [ExceptT.run_bind, StateT.run_bind, hget]
  change StateT.run (ExceptT.run _) search = _
  cases hsome : search.folders.findSome? fun folder => tree.find? folder path with
  | none => rfl
  | some hit =>
    dsimp only
    split <;> rfl

/-- Loading what an import of a reached file names finds the file that stands there, and keeps the
search sound. -/
theorem Unambiguous.loads (h : tree.Unambiguous start) {search : Search}
    (hsound : tree.Sound start search) (hcovers : tree.Covers search file)
    (hfile : tree.Reached start file) (himports : file.Imports path)
    (hnamed : tree.named? file.folder path = some found) :
    ∃ search', (tree.loader path).run.run search = (.ok found.2, search') ∧
      tree.Sound start search' ∧ tree.Covers search' found ∧ search.folders ⊆ search'.folders := by
  have hsearch := h.searches hsound hcovers hfile himports
  rw [hnamed] at hsearch
  obtain ⟨steps, hsteps, hfolder⟩ := hsearch
  have hreached : tree.Reached start found := hfile.tail ⟨path, himports, hnamed⟩
  have hload : (tree.loader path).run.run search =
      (.ok found.2, if search.found.contains steps then search else
        ⟨steps.dropLast :: search.folders, steps :: search.found⟩) := by
    rw [loader_run, hsteps]
  refine ⟨_, hload, ?_⟩
  split
  · rename_i hseen
    exact ⟨hsound, ⟨_, hsound.found steps (List.contains_iff_mem.mp hseen), hfolder⟩,
      List.Subset.refl _⟩
  · refine ⟨⟨?_, ?_⟩, ⟨_, List.mem_cons_self, hfolder⟩, List.subset_cons_self _ _⟩
    · exact List.forall_mem_cons.mpr ⟨⟨found, hreached, hfolder⟩, hsound.folders⟩
    · exact List.forall_mem_cons.mpr ⟨List.mem_cons_self, fun s hs =>
        List.mem_cons_of_mem _ (hsound.found s hs)⟩

/-- One import of a reached file is merged alike by text and by place. -/
theorem Unambiguous.one (h : tree.Unambiguous start) {depth : Nat}
    {opened : List (String × List String)} {earlier search : Search} {i : Import}
    {r : List Definition × List String} {r' : List Definition × List (List String)}
    (hfile : tree.Reached start file) (himports : file.Imports i.path)
    (hopened : ∀ entry ∈ opened, tree.Known start entry)
    (hcovers : tree.Covers earlier file) (hmatches : tree.Matches start earlier r r' search)
    (hnext : ∀ found program (merged : List (String × List String)) search,
      tree.named? file.folder i.path = some found → Program.ofSource found.2 = .ok program →
      (∀ entry ∈ merged, tree.Known start entry) → tree.Sound start search →
      tree.Covers search found →
      Agrees (Import.merge tree.loader depth (opened.map Prod.fst ++ [i.path])
          (merged.map Prod.fst) program)
        (tree.mergeRelative depth (opened ++ [(i.path, found.1)]) (merged.map Prod.snd) found program)
        search (tree.Matches start search)) :
    Agrees (Import.mergeOne tree.loader depth (opened.map Prod.fst) r i)
      (tree.relativeOne (tree.mergeRelative depth) opened file r' i) search
      (tree.Matches start earlier) := by
  obtain ⟨imported, merged⟩ := r
  obtain ⟨imported', merged'⟩ := r'
  obtain ⟨rfl, ⟨entries, hentries, rfl, rfl⟩, hsound, hgrown⟩ := hmatches
  have hhere : tree.Covers search file := by
    obtain ⟨written, hwritten, harrives⟩ := hcovers
    exact ⟨written, hgrown hwritten, harrives⟩
  unfold Import.mergeOne relativeOne
  dsimp only
  cases hnamed : tree.named? file.folder i.path with
  | none =>
    have hload := h.searches hsound hhere hfile himports
    rw [hnamed] at hload
    rw [if_neg (by simpa using h.not_mem_paths hopened hfile himports hnamed),
      if_neg (by simpa using h.not_mem_paths hentries hfile himports hnamed)]
    have hrun : (tree.loader i.path).run.run search =
        (.error (.imports (.notFound i.path)), search) := by rw [loader_run, hload]
    exact .failed hrun
  | some found =>
    dsimp only
    rw [h.contains_paths hopened hfile himports hnamed, h.contains_paths hentries hfile himports hnamed]
    refine .ite (fun _ => .throw _) fun _ => .ite (fun _ => .pure ⟨rfl, ⟨entries, hentries, rfl, rfl⟩,
      hsound, hgrown⟩) fun _ => ?_
    obtain ⟨search', hload, hsound', hcovers', hgrown'⟩ :=
      h.loads hsound hhere hfile himports hnamed
    refine .ahead hload (.ofExcept fun program hprogram => ?_)
    refine .bind (hnext found program entries _ hnamed hprogram hentries hsound' hcovers') ?_
    rintro ⟨definitions, paths⟩ ⟨definitions', places⟩ search''
      ⟨rfl, ⟨entries', hentries', rfl, rfl⟩, hsound'', hgrown''⟩
    refine .pure ⟨rfl, ⟨(i.path, found.1) :: entries', ?_, rfl, rfl⟩, hsound'',
      List.Subset.trans hgrown (List.Subset.trans hgrown' hgrown'')⟩
    exact List.forall_mem_cons.mpr ⟨⟨file, found.2, hfile, himports, hnamed⟩, hentries'⟩

/-- The program of a reached file is merged alike by texts and by places. The induction is on the
depth, in which both ways run alike. -/
theorem Unambiguous.merges (h : tree.Unambiguous start) {depth : Nat}
    (opened merged : List (String × List String)) {search : Search} {program : Program}
    (hfile : tree.Reached start file) (hprogram : Program.ofSource file.2 = .ok program)
    (hopened : ∀ entry ∈ opened, tree.Known start entry)
    (hmerged : ∀ entry ∈ merged, tree.Known start entry)
    (hsound : tree.Sound start search) (hcovers : tree.Covers search file) :
    Agrees (Import.merge tree.loader depth (opened.map Prod.fst) (merged.map Prod.fst) program)
      (tree.mergeRelative depth opened (merged.map Prod.snd) file program) search
      (tree.Matches start search) := by
  induction depth generalizing file opened merged search program with
  | zero => exact .throw _
  | succ depth ih =>
    rw [Import.merge_succ, mergeRelative]
    refine .bind (.foldlM (P := tree.Matches start search) program.imports
      ⟨rfl, ⟨merged, hmerged, rfl, rfl⟩, hsound, List.Subset.refl _⟩ ?_) ?_
    · intro i hi r r' search' hmatches
      have himports : file.Imports i.path := ⟨program, hprogram, i, hi, rfl⟩
      refine h.one hfile himports hopened hcovers hmatches ?_
      intro found program' merged' search'' hnamed hprogram' hmerged' hsound' hcovers'
      have hentry : tree.Known start (i.path, found.1) := ⟨file, found.2, hfile, himports, hnamed⟩
      have hopened' := List.forall_mem_append.mpr ⟨hopened, List.forall_mem_singleton.mpr hentry⟩
      have hnext := ih _ _ (hfile.tail ⟨i.path, himports, hnamed⟩) hprogram' hopened' hmerged' hsound'
        hcovers'
      rwa [List.map_append] at hnext
    · rintro ⟨definitions, paths⟩ ⟨definitions', places⟩ search'
        ⟨rfl, hentries, hsound', hgrown⟩
      exact .pure ⟨rfl, hentries, hsound', hgrown⟩

/-- Wherever no import is ambiguous, a file compiles to what it means when every import names a
neighbour of the file that it stands in. -/
theorem interface_eq_relative (tree : FileTree) (path : String)
    (h : ∀ start, tree.named? [] path = some start → tree.Unambiguous start) :
    tree.interface path = tree.relativeInterface path := by
  have hroot : Arrives tree [] [] := fun _ _ => rfl
  have hfind := find?_of_arrives hroot path
  unfold interface relativeInterface
  cases hnamed : tree.named? [] path with
  | none =>
    rw [hnamed] at hfind
    rw [hfind]
  | some start =>
    rw [hnamed] at hfind
    obtain ⟨steps, hsteps, hfolder⟩ := hfind
    rw [hsteps]
    have hsound : tree.Sound start ⟨[steps.dropLast], []⟩ :=
      ⟨List.forall_mem_singleton.mpr ⟨start, .refl, hfolder⟩, nofun⟩
    have hcovers : tree.Covers ⟨[steps.dropLast], []⟩ start :=
      ⟨_, List.mem_singleton_self _, hfolder⟩
    have hagrees : Agrees (Interface.ofSourceWith tree.loader (tree.size + 1) start.2)
        (do
          let program ← Program.ofSource start.2
          let (definitions, _) ← tree.mergeRelative (tree.size + 1) [] [] start program
          Program.interface ⟨program.imports, definitions, program.actor⟩)
        ⟨[steps.dropLast], []⟩ fun a b _ => a = b := by
      refine .ofExcept fun program hprogram => ?_
      refine .bind ((h start hnamed).merges [] [] .refl hprogram nofun nofun
        hsound hcovers) ?_
      rintro ⟨definitions, paths⟩ ⟨definitions', places⟩ search' ⟨rfl, _, _, _⟩
      exact .lift _
    exact hagrees.result_eq

def mainText : String :=
  "import \"common/user.did\"; service : \x7b get : (Id) -> (User) query \x7d"

def userText : String := "import \"base.did\"; type User = record \x7b id : Id \x7d;"

def baseText : String := "type Id = nat64;"

def mainFile : PlacedFile := (["main.did"], mainText)

def userFile : PlacedFile := (["common", "user.did"], userText)

def baseFile : PlacedFile := (["common", "base.did"], baseText)

def commonTree : FileTree := ⟨[mainFile, userFile, baseFile]⟩

theorem commonTree_named (folder : List String) (path : String) (found : PlacedFile)
    (hfolder : folder ∈ [[], ["common"]]) (hpath : path ∈ ["common/user.did", "base.did"]) :
    commonTree.named? folder path = some found ↔
      (folder = [] ∧ path = "common/user.did" ∧ found = userFile) ∨
        (folder = ["common"] ∧ path = "base.did" ∧ found = baseFile) := by
  simp only [List.mem_cons, List.not_mem_nil, or_false] at hfolder hpath
  have hmain : commonTree.named? [] "common/user.did" = some userFile := by cbv
  have hnone : commonTree.named? [] "base.did" = none := by cbv
  have hnone' : commonTree.named? ["common"] "common/user.did" = none := by cbv
  have hbase : commonTree.named? ["common"] "base.did" = some baseFile := by cbv
  obtain rfl | rfl := hfolder <;> obtain rfl | rfl := hpath <;>
    simp [hmain, hnone, hnone', hbase, eq_comm]

theorem mainText_imports : (Program.ofSource mainText).map (fun p => p.imports.map (·.path)) =
    .ok ["common/user.did"] := by cbv

theorem userText_imports : (Program.ofSource userText).map (fun p => p.imports.map (·.path)) =
    .ok ["base.did"] := by cbv

theorem baseText_imports : (Program.ofSource baseText).map (fun p => p.imports.map (·.path)) =
    .ok [] := by cbv

theorem commonTree_imports {file : PlacedFile} (hfile : file ∈ [mainFile, userFile, baseFile])
    (path : String) : file.Imports path ↔
      (file = mainFile ∧ path = "common/user.did") ∨ (file = userFile ∧ path = "base.did") := by
  have hmain : mainFile.Imports path ↔ _ := (Interface.imports_iff_mem mainText_imports).2 path
  have huser : userFile.Imports path ↔ _ := (Interface.imports_iff_mem userText_imports).2 path
  have hbase : baseFile.Imports path ↔ _ := (Interface.imports_iff_mem baseText_imports).2 path
  have hne : mainFile ≠ userFile ∧ mainFile ≠ baseFile ∧ userFile ≠ baseFile := by decide
  simp only [List.mem_cons, List.not_mem_nil, or_false] at hfile
  obtain rfl | rfl | rfl := hfile
  · simp [hmain, hne]
  · simp [huser, hne.1.symm]
  · simp [hbase, hne.2.1.symm, hne.2.2.symm]

theorem commonTree_reached {file : PlacedFile} (h : commonTree.Reached mainFile file) :
    file ∈ [mainFile, userFile, baseFile] := by
  induction h with
  | refl => exact List.mem_cons_self
  | tail _ hstep ih =>
    obtain ⟨path, himports, hnamed⟩ := hstep
    rcases (commonTree_imports ih path).mp himports with ⟨rfl, rfl⟩ | ⟨rfl, rfl⟩
    · have hfound := (commonTree_named [] _ _ (by simp) (by simp)).mp hnamed
      simp at hfound
      simp [hfound]
    · have hfound := (commonTree_named ["common"] _ _ (by simp) (by simp)).mp hnamed
      simp at hfound
      simp [hfound]

theorem commonTree_unambiguous : commonTree.Unambiguous mainFile := by
  have hfolder {file : PlacedFile} (hfile : commonTree.Reached mainFile file) :
      file.folder ∈ [[], ["common"]] := by
    have hmem := commonTree_reached hfile
    simp only [List.mem_cons, List.not_mem_nil, or_false] at hmem
    obtain rfl | rfl | rfl := hmem <;> decide
  have hmain : commonTree.named? mainFile.folder "common/user.did" = some userFile :=
    (commonTree_named [] _ _ (by simp) (by simp)).mpr (by simp)
  have huser : commonTree.named? userFile.folder "base.did" = some baseFile :=
    (commonTree_named ["common"] _ _ (by simp) (by simp)).mpr (by simp)
  constructor
  · intro file other path found hfile hother himports hnamed
    rcases (commonTree_imports (commonTree_reached hfile) path).mp himports with ⟨rfl, rfl⟩ | ⟨rfl, rfl⟩
    · have hfound := (commonTree_named _ _ _ (hfolder hother) (by simp)).mp hnamed
      simp only [String.reduceEq, true_and, false_and, and_false, or_false] at hfound
      rw [hmain, hfound.2]
    · have hfound := (commonTree_named _ _ _ (hfolder hother) (by simp)).mp hnamed
      simp only [String.reduceEq, true_and, false_and, and_false, false_or] at hfound
      rw [huser, hfound.2]
  · intro file other path path' found hfile hother himports himports' hnamed hnamed'
    have hne : userFile ≠ baseFile := by decide
    rcases (commonTree_imports (commonTree_reached hfile) path).mp himports with ⟨rfl, rfl⟩ | ⟨rfl, rfl⟩ <;>
      rcases (commonTree_imports (commonTree_reached hother) path').mp himports' with
        ⟨rfl, rfl⟩ | ⟨rfl, rfl⟩
    · rfl
    · exact (hne (Option.some.inj ((hmain.symm.trans hnamed).trans (hnamed'.symm.trans huser)))).elim
    · exact (hne (Option.some.inj ((hmain.symm.trans hnamed').trans (hnamed.symm.trans huser)))).elim
    · rfl

theorem interface_eq_relative_common :
    (∀ start, commonTree.named? [] "main.did" = some start → commonTree.Unambiguous start) ∧
      commonTree.interface "main.did" = commonTree.relativeInterface "main.did" := by
  have hstart : commonTree.named? [] "main.did" = some mainFile := by cbv
  have hunambiguous : ∀ start, commonTree.named? [] "main.did" = some start →
      commonTree.Unambiguous start := by
    intro start h
    cases hstart.symm.trans h
    exact commonTree_unambiguous
  exact ⟨hunambiguous, interface_eq_relative commonTree "main.did" hunambiguous⟩

def twoNeighbours : FileTree := ofList
  [("main.did", "import \"a/x.did\"; import \"b/y.did\";"),
   ("a/x.did", "import \"base.did\"; type X = vec A;"),
   ("a/base.did", "type A = nat;"),
   ("b/y.did", "import \"base.did\"; type Y = vec B;"),
   ("b/base.did", "type B = text;")]

theorem twoNeighbours_interface : (twoNeighbours.interface "main.did").isOk = false := by cbv

theorem twoNeighbours_relative : (twoNeighbours.relativeInterface "main.did").isOk = true := by cbv

/-- An import may be taken for one of another folder that was merged before. -/
theorem interface_ne_relative :
    ¬ ∀ (tree : FileTree) (path : String), tree.interface path = tree.relativeInterface path := by
  intro h
  have hfails := twoNeighbours_interface
  rw [h, twoNeighbours_relative] at hfails
  cases hfails

end FileTree
end Didl.Idl
