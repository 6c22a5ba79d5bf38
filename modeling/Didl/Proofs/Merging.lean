import Didl.Proofs.Sufficiency
import Mathlib.Data.List.Chain

namespace Didl.Idl

open Relation

namespace Loader

/-- Finds the text that a function gives for a path, and records every path that it is asked for,
the latest in front. -/
def ofFunction (text : String → Except Failure String) : Loader (List String) := fun path => do
  modify (path :: ·)
  liftM (text path)

def textOf (texts : List (String × String)) (path : String) : Except Failure String :=
  match texts.lookup path with
  | some text => .ok text
  | none => .error (.imports (.notLoaded path))

theorem ofList_eq (texts : List (String × String)) : ofList texts = ofFunction (textOf texts) := by
  funext path
  unfold ofList ofFunction textOf
  cases texts.lookup path <;> rfl

end Loader

namespace Import
variable (text : String → Except Failure String)

def programAt (path : String) : Except Failure Program := text path >>= Program.ofSource

def definitionsAt (path : String) : List Definition :=
  match programAt text path with
  | .ok file => file.definitions
  | .error _ => []

def Leads (p q : String) : Prop :=
  ∃ file, programAt text p = .ok file ∧ ∃ i ∈ file.imports, i.path = q

/-- A path that some import names, or that is imported by a file behind such a path. -/
def Reaches (imports : List Import) (p : String) : Prop :=
  ∃ i ∈ imports, ReflTransGen (Leads text) i.path p

variable {text} {imports : List Import} {p q : String}

theorem definitionsAt_eq {file : Program} (h : programAt text p = .ok file) :
    definitionsAt text p = file.definitions := by
  rw [definitionsAt, h]

theorem Reaches.imported {i : Import} (h : i ∈ imports) : Reaches text imports i.path :=
  ⟨i, h, .refl⟩

theorem Reaches.tail (h : Reaches text imports p) (hpq : Leads text p q) :
    Reaches text imports q := by
  obtain ⟨i, hi, hp⟩ := h
  exact ⟨i, hi, hp.tail hpq⟩

/-- What an imported file reaches is reached. -/
theorem Reaches.through {i : Import} {file : Program} (hi : i ∈ imports)
    (hfile : programAt text i.path = .ok file) (h : Reaches text file.imports p) :
    Reaches text imports p := by
  obtain ⟨j, hj, hp⟩ := h
  exact ⟨i, hi, .head ⟨file, hfile, j, hj, rfl⟩ hp⟩

variable (text) in
def Settled : List String → Prop
  | [] => True
  | p :: rest => (∀ q, Leads text p q → q ∈ rest) ∧ Settled rest

namespace Settled
variable {paths : List String}

theorem closed (h : Settled text paths) (hp : p ∈ paths) (hpq : Leads text p q) : q ∈ paths := by
  induction paths with
  | nil => cases hp
  | cons r rest ih =>
    rcases List.mem_cons.mp hp with rfl | hp
    · exact List.mem_cons_of_mem _ (h.1 q hpq)
    · exact List.mem_cons_of_mem _ (ih h.2 hp)

theorem closed_star (h : Settled text paths) (hp : p ∈ paths)
    (hpq : ReflTransGen (Leads text) p q) : q ∈ paths := by
  induction hpq with
  | refl => exact hp
  | tail _ hstep ih => exact h.closed ih hstep

/-- No path of the list leads back to itself. -/
theorem acyclic (h : Settled text paths) (hnodup : paths.Nodup) (hp : p ∈ paths) :
    ¬ TransGen (Leads text) p p := by
  induction paths with
  | nil => cases hp
  | cons r rest ih =>
    obtain ⟨hr, hrest⟩ := List.nodup_cons.mp hnodup
    rcases List.mem_cons.mp hp with rfl | hp
    · intro hcycle
      obtain ⟨q, hpq, hback⟩ := TransGen.head'_iff.mp hcycle
      exact hr (h.2.closed_star (h.1 q hpq) hback)
    · exact ih h.2 hrest hp

/-- Read from its end, the list has every path in front of those that lead to it. -/
theorem sublist (h : Settled text paths) (hp : p ∈ paths) (hpq : Leads text p q) :
    List.Sublist [q, p] paths.reverse := by
  rw [← List.reverse_sublist, List.reverse_reverse]
  induction paths with
  | nil => cases hp
  | cons r rest ih =>
    rcases List.mem_cons.mp hp with rfl | hp
    · exact (List.singleton_sublist.mpr (h.1 q hpq)).cons_cons p
    · exact (ih h.2 hp).cons r

end Settled

/-- A way whose last path was passed before leads from that path back to it. -/
theorem transGen_of_isChain {way : List String} (h : (way ++ [p]).IsChain (Leads text))
    (hp : p ∈ way) : TransGen (Leads text) p p := by
  have hpairs : (way ++ [p]).Pairwise (TransGen (Leads text)) :=
    (h.imp fun _ _ => TransGen.single).pairwise
  exact (List.pairwise_append.mp hpairs).2.2 p hp p (List.mem_singleton_self p)

variable (text) in
/-- Files that were merged in addition to others, in this order, when so many paths were asked for
before and so many after. -/
structure Merged (merged asked order asked' : List String) : Prop where
  nodup : (order.reverse ++ merged).Nodup
  settled : Settled text (order.reverse ++ merged)
  asked : asked'.Perm (order ++ asked)

namespace Merged
variable {merged asked asked' asked'' order order' : List String}

theorem none (hnodup : merged.Nodup) (hsettled : Settled text merged) :
    Merged text merged asked [] asked :=
  ⟨hnodup, hsettled, .refl _⟩

theorem trans (h : Merged text merged asked order asked')
    (k : Merged text (order.reverse ++ merged) asked' order' asked'') :
    Merged text merged asked (order ++ order') asked'' := by
  obtain ⟨hnodup, hsettled, hasked⟩ := k
  rw [← List.append_assoc, ← List.reverse_append] at hnodup hsettled
  refine ⟨hnodup, hsettled, hasked.trans ?_⟩
  rw [List.append_assoc]
  exact (h.asked.append_left _).trans (by
    rw [← List.append_assoc, ← List.append_assoc]
    exact List.perm_append_comm.append_right _)

/-- A file is merged when everything that it imports is. -/
theorem snoc (h : Merged text merged (p :: asked) order asked') (hp : p ∉ order.reverse ++ merged)
    (hleads : ∀ q, Leads text p q → q ∈ order.reverse ++ merged) :
    Merged text merged asked (order ++ [p]) asked' := by
  have hlist : (order ++ [p]).reverse ++ merged = p :: (order.reverse ++ merged) := by simp
  refine ⟨hlist ▸ List.nodup_cons.mpr ⟨hp, h.nodup⟩, hlist ▸ ⟨hleads, h.settled⟩, ?_⟩
  rw [List.append_assoc]
  exact h.asked

end Merged

variable (text) in
/-- A way along imports, among the paths that a program reaches, that comes to a path which it
passed before. -/
structure IsCycle (imports : List Import) (paths : List String) : Prop where
  walk : paths.IsChain (Leads text)
  reached : ∀ p ∈ paths, Reaches text imports p
  closed : ∃ way p, paths = way ++ [p] ∧ p ∈ way

/-- A path on the way leads back to itself. -/
theorem IsCycle.exists_transGen {paths : List String} (h : IsCycle text imports paths) :
    ∃ p, Reaches text imports p ∧ TransGen (Leads text) p p := by
  obtain ⟨hwalk, hreached, way, p, rfl, hp⟩ := h
  exact ⟨p, hreached p (List.mem_append_left _ hp), transGen_of_isChain hwalk hp⟩

variable (text) in
/-- What may come of work on the imports of a program: a value and a record of what was asked for,
or a report of a cycle that there is. -/
def Yields {α : Type} (main : List Import) (work : Loading (List String) α)
    (asked : List String) (P : α → List String → Prop) : Prop :=
  match work.run.run asked with
  | (.ok a, asked') => P a asked'
  | (.error e, _) => ∃ paths, e = .imports (.cycle paths) ∧ IsCycle text main paths

namespace Yields
variable {α β : Type} {main : List Import} {asked : List String} {P : α → List String → Prop}
  {Q : β → List String → Prop}

theorem pure {a : α} (h : P a asked) : Yields text main (Pure.pure a) asked P := h

theorem bind {work : Loading (List String) α} {next : α → Loading (List String) β}
    (h : Yields text main work asked P)
    (hnext : ∀ a asked', P a asked' → Yields text main (next a) asked' Q) :
    Yields text main (work >>= next) asked Q := by
  unfold Yields at h
  rcases hrun : work.run.run asked with ⟨e | a, asked'⟩
  · rw [hrun] at h
    rw [Yields, ExceptT.run_bind, StateT.run_bind, hrun]
    exact h
  · rw [hrun] at h
    rw [Yields, ExceptT.run_bind, StateT.run_bind, hrun]
    exact hnext a asked' h

theorem mono {work : Loading (List String) α} {Q : α → List String → Prop}
    (h : Yields text main work asked P) (hPQ : ∀ a asked', P a asked' → Q a asked') :
    Yields text main work asked Q := by
  unfold Yields at h ⊢
  split
  · rename_i a asked' hrun
    rw [hrun] at h
    exact hPQ a asked' h
  · rename_i e asked' hrun
    rw [hrun] at h
    exact h

theorem cycle {paths : List String} (h : IsCycle text main paths) :
    Yields text main (throw (.imports (.cycle paths))) asked P :=
  ⟨paths, rfl, h⟩

/-- Loading and parsing a file that is there. -/
theorem load {file : Program} {next : Program → Loading (List String) β}
    (hfile : programAt text p = .ok file) (hnext : Yields text main (next file) (p :: asked) Q) :
    Yields text main (do next (← liftM (Program.ofSource (← Loader.ofFunction text p)))) asked Q := by
  obtain ⟨source, hsource, hprogram⟩ := except_bind_eq_ok.mp hfile
  have hload : (Loader.ofFunction text p).run.run asked = (.ok source, p :: asked) := by
    rw [Loader.ofFunction, hsource]
    rfl
  have hparse : (liftM (Program.ofSource source) : Loading (List String) Program).run.run
      (p :: asked) = (.ok file, p :: asked) := by
    rw [hprogram]
    rfl
  refine bind (P := fun s asked' => s = source ∧ asked' = p :: asked) ?_ ?_
  · simp [Yields, hload]
  · rintro _ _ ⟨rfl, rfl⟩
    refine bind (P := fun s asked' => s = file ∧ asked' = p :: asked) ?_ ?_
    · simp [Yields, hparse]
    · rintro _ _ ⟨rfl, rfl⟩
      exact hnext

end Yields

def mergeOne {σ : Type} (load : Loader σ) (depth : Nat) (opened : List String) :
    List Definition × List String → Import → Loading σ (List Definition × List String) :=
  fun (imported, merged) i => do
    if opened.contains i.path then
      throw (.imports (.cycle (opened ++ [i.path])))
    else if merged.contains i.path then
      return (imported, merged)
    else
      let file ← liftM (Program.ofSource (← load i.path))
      let (definitions, merged) ← merge load depth (opened ++ [i.path]) merged file
      return (imported ++ definitions, i.path :: merged)

theorem merge_succ {σ : Type} (load : Loader σ) (depth : Nat) (opened merged : List String)
    (program : Program) :
    merge load (depth + 1) opened merged program = (do
      let (imported, merged) ← program.imports.foldlM (mergeOne load depth opened) ([], merged)
      return (imported ++ program.definitions, merged)) := rfl

variable (text) in
structure Opened (main : List Import) (opened : List String) (imports : List Import) : Prop where
  nodup : opened.Nodup
  reached : ∀ p ∈ opened, Reaches text main p
  named : ∀ i ∈ imports, Reaches text main i.path
  walk : ∀ i ∈ imports, (opened ++ [i.path]).IsChain (Leads text)

namespace Opened
variable {main : List Import} {opened : List String}

theorem start (imports : List Import) : Opened text imports [] imports :=
  ⟨.nil, nofun, fun _ => Reaches.imported, fun _ _ => .singleton _⟩

theorem into (h : Opened text main opened imports) {i : Import} (hi : i ∈ imports)
    {file : Program} (hfile : programAt text i.path = .ok file) (hnew : i.path ∉ opened) :
    Opened text main (opened ++ [i.path]) file.imports := by
  have hleads : ∀ j ∈ file.imports, Leads text i.path j.path := fun j hj =>
    ⟨file, hfile, j, hj, rfl⟩
  refine ⟨?_, ?_, fun j hj => (h.named i hi).tail (hleads j hj), fun j hj => ?_⟩
  · exact List.nodup_append_comm.mp (List.nodup_cons.mpr ⟨hnew, h.nodup⟩)
  · exact List.forall_mem_append.mpr ⟨h.reached, List.forall_mem_singleton.mpr (h.named i hi)⟩
  · refine List.isChain_append.mpr ⟨h.walk i hi, .singleton _, fun p hp q hq => ?_⟩
    obtain rfl : i.path = p := by simpa using hp
    obtain rfl : j.path = q := by simpa using hq
    exact hleads j hj

theorem cycle (h : Opened text main opened imports) {i : Import} (hi : i ∈ imports)
    (hopen : i.path ∈ opened) : IsCycle text main (opened ++ [i.path]) :=
  ⟨h.walk i hi, List.forall_mem_append.mpr
    ⟨h.reached, List.forall_mem_singleton.mpr (h.named i hi)⟩, opened, i.path, rfl, hopen⟩

theorem length_le (h : Opened text main opened imports) {paths : List String}
    (hpaths : ∀ p, Reaches text main p → p ∈ paths) : opened.length ≤ paths.length :=
  h.nodup.length_le_of_subset fun p hp => hpaths p (h.reached p hp)

end Opened

variable (text) in
/-- Files that were merged for these imports, none of them open. -/
structure Gathered (opened merged asked : List String) (imports : List Import)
    (order asked' : List String) : Prop extends Merged text merged asked order asked' where
  fresh : ∀ p ∈ order, p ∉ opened
  reached : ∀ p ∈ order, Reaches text imports p
  complete : ∀ i ∈ imports, i.path ∈ order.reverse ++ merged

namespace Gathered
variable {opened merged asked asked' asked'' order order' : List String} {i : Import}

theorem nil (hnodup : merged.Nodup) (hsettled : Settled text merged) :
    Gathered text opened merged asked [] [] asked :=
  ⟨.none hnodup hsettled, nofun, nofun, nofun⟩

theorem before (hnodup : merged.Nodup) (hsettled : Settled text merged) (hi : i.path ∈ merged) :
    Gathered text opened merged asked [i] [] asked :=
  ⟨.none hnodup hsettled, nofun, nofun, List.forall_mem_singleton.mpr hi⟩

/-- A file is merged behind the files that were merged for its imports. -/
theorem file {file : Program} (hfile : programAt text i.path = .ok file)
    (hopen : i.path ∉ opened) (hmerged : i.path ∉ merged)
    (h : Gathered text (opened ++ [i.path]) merged (i.path :: asked) file.imports order asked') :
    Gathered text opened merged asked [i] (order ++ [i.path]) asked' := by
  have hnew : i.path ∉ order := fun hmem =>
    h.fresh _ hmem (List.mem_append_right _ (List.mem_singleton_self _))
  refine ⟨h.toMerged.snoc ?_ ?_, ?_, ?_, ?_⟩
  · simpa using ⟨hnew, hmerged⟩
  · rintro q ⟨file', hfile', j, hj, rfl⟩
    cases hfile.symm.trans hfile'
    exact h.complete j hj
  · refine List.forall_mem_append.mpr ⟨fun p hp hmem => ?_, List.forall_mem_singleton.mpr hopen⟩
    exact h.fresh p hp (List.mem_append_left _ hmem)
  · refine List.forall_mem_append.mpr ⟨fun p hp => ?_, List.forall_mem_singleton.mpr ?_⟩
    · exact (h.reached p hp).through (List.mem_singleton_self i) hfile
    · exact .imported (List.mem_singleton_self i)
  · simp

theorem cons (h : Gathered text opened merged asked [i] order asked')
    (k : Gathered text opened (order.reverse ++ merged) asked' imports order' asked'') :
    Gathered text opened merged asked (i :: imports) (order ++ order') asked'' := by
  refine ⟨h.toMerged.trans k.toMerged, List.forall_mem_append.mpr ⟨h.fresh, k.fresh⟩,
    List.forall_mem_append.mpr ⟨fun p hp => ?_, fun p hp => ?_⟩, ?_⟩
  · obtain ⟨j, hj, hp⟩ := h.reached p hp
    exact ⟨j, List.mem_cons.mpr (.inl (List.mem_singleton.mp hj)), hp⟩
  · obtain ⟨j, hj, hp⟩ := k.reached p hp
    exact ⟨j, List.mem_cons_of_mem _ hj, hp⟩
  · rw [List.reverse_append, List.append_assoc]
    refine List.forall_mem_cons.mpr ⟨List.mem_append_right _ ?_, k.complete⟩
    exact h.complete i (List.mem_singleton_self i)

end Gathered

variable (text) in
/-- What merging imports adds: the definitions of the files that it merged, each behind those of the
files that it imports. -/
def Adds (opened merged asked : List String) (imports : List Import) (before after : List Definition)
    (r : List Definition × List String) (asked' : List String) : Prop :=
  ∃ order, r = (before ++ order.flatMap (definitionsAt text) ++ after, order.reverse ++ merged) ∧
    Gathered text opened merged asked imports order asked'

section
variable {main : List Import} {depth : Nat} {opened : List String}

/-- One import adds the file that it names and what that file imports, or nothing. The files open
below it are those open here and the file itself. -/
theorem mergeOne_yields {merged asked : List String} {before : List Definition} {i : Import}
    {file : Program} (hfile : programAt text i.path = .ok file)
    (hcycle : i.path ∈ opened → IsCycle text main (opened ++ [i.path])) (hnodup : merged.Nodup)
    (hsettled : Settled text merged)
    (hmerge : i.path ∉ opened → Yields text main
      (merge (Loader.ofFunction text) depth (opened ++ [i.path]) merged file) (i.path :: asked)
      (Adds text (opened ++ [i.path]) merged (i.path :: asked) file.imports [] file.definitions)) :
    Yields text main (mergeOne (Loader.ofFunction text) depth opened (before, merged) i) asked
      (Adds text opened merged asked [i] before []) := by
  unfold mergeOne
  dsimp only
  split
  · rename_i hopen
    exact .cycle (hcycle (List.contains_iff_mem.mp hopen))
  rename_i hopen
  rw [List.contains_iff_mem] at hopen
  split
  · rename_i hmerged
    exact ⟨[], by simp, .before hnodup hsettled (List.contains_iff_mem.mp hmerged)⟩
  · rename_i hmerged
    rw [List.contains_iff_mem] at hmerged
    refine .load hfile ((hmerge hopen).bind ?_)
    rintro _ asked' ⟨order, rfl, hgathered⟩
    refine .pure ⟨order ++ [i.path], ?_, .file hfile hopen hmerged hgathered⟩
    simp [definitionsAt_eq hfile]

theorem foldlM_mergeOne_yields {load : Loader (List String)} {merged asked : List String}
    {before : List Definition} (imports : List Import) (hnodup : merged.Nodup)
    (hsettled : Settled text merged)
    (hone : ∀ i ∈ imports, ∀ before merged asked, merged.Nodup → Settled text merged →
      Yields text main (mergeOne load depth opened (before, merged) i) asked
        (Adds text opened merged asked [i] before [])) :
    Yields text main (imports.foldlM (mergeOne load depth opened) (before, merged)) asked
      (Adds text opened merged asked imports before []) := by
  induction imports generalizing before merged asked with
  | nil => exact .pure ⟨[], by simp, .nil hnodup hsettled⟩
  | cons i imports ih =>
    obtain ⟨hfirst, hrest⟩ := List.forall_mem_cons.mp hone
    refine (hfirst before merged asked hnodup hsettled).bind ?_
    rintro _ asked' ⟨order, rfl, hgathered⟩
    refine Yields.mono (ih hgathered.nodup hgathered.settled hrest) ?_
    rintro _ asked'' ⟨order', rfl, hgathered'⟩
    exact ⟨order ++ order', by simp, hgathered.cons hgathered'⟩

/-- Merging adds the files that are reached and were not merged before, or it reports a cycle. The
induction is on the depth, which the paths that are not open bound. -/
theorem merge_yields {paths : List String}
    (hpaths : ∀ p, Reaches text main p → p ∈ paths ∧ ∃ file, programAt text p = .ok file)
    {merged asked : List String} {program : Program}
    (hopened : Opened text main opened program.imports)
    (hdepth : paths.length < depth + opened.length) (hnodup : merged.Nodup)
    (hsettled : Settled text merged) :
    Yields text main (merge (Loader.ofFunction text) depth opened merged program) asked
      (Adds text opened merged asked program.imports [] program.definitions) := by
  induction depth generalizing opened merged asked program with
  | zero =>
    have hle := hopened.length_le fun p hp => (hpaths p hp).1
    omega
  | succ depth ih =>
    rw [merge_succ]
    refine (foldlM_mergeOne_yields program.imports hnodup hsettled ?_).bind ?_
    · intro i hi before merged asked hnodup hsettled
      obtain ⟨file, hfile⟩ := (hpaths i.path (hopened.named i hi)).2
      refine mergeOne_yields hfile (hopened.cycle hi) hnodup hsettled fun hopen => ?_
      refine ih (hopened.into hi hfile hopen) ?_ hnodup hsettled
      rw [List.length_append, List.length_singleton]
      omega
    · rintro _ asked' ⟨order, rfl, hgathered⟩
      exact .pure ⟨order, by simp, hgathered⟩

end

end Import

namespace Interface
open Import

variable {text : String → Except Failure String} {depth : Nat} {source : String}
  {program : Program} {paths : List String}

theorem definitionsAt_grammatical (p : String) : ∀ d ∈ definitionsAt text p, Grammatical d.type := by
  intro d hd
  cases hfile : programAt text p with
  | error e =>
    rw [definitionsAt, hfile] at hd
    cases hd
  | ok file =>
    rw [definitionsAt_eq hfile] at hd
    obtain ⟨_, _, hprogram⟩ := except_bind_eq_ok.mp hfile
    exact (Program.ofSource_grammatical hprogram).definitions d hd

/-- Where the imports were merged, none of them is refused. -/
theorem interface_merged_ne_cycle (hprogram : program.Grammatical) (order cycle : List String) :
    Program.interface ⟨program.imports,
      order.flatMap (definitionsAt text) ++ program.definitions, program.actor⟩ ≠
        .error (.imports (.cycle cycle)) := by
  have hmerged : Program.Grammatical ⟨program.imports,
      order.flatMap (definitionsAt text) ++ program.definitions, program.actor⟩ := by
    refine ⟨List.forall_mem_append.mpr ⟨fun d hd => ?_, hprogram.definitions⟩, hprogram.actor⟩
    obtain ⟨p, _, hd⟩ := List.mem_flatMap.mp hd
    exact definitionsAt_grammatical p d hd
  intro h
  obtain ⟨cause, hcause⟩ := Program.interface_compile hmerged h
  cases hcause

/-- The two ways in which merging the imports of source can end. -/
theorem ofSourceWith_cases (hsource : Program.ofSource source = .ok program)
    (hpaths : ∀ p, Reaches text program.imports p →
      p ∈ paths ∧ ∃ file, programAt text p = .ok file)
    (hdepth : paths.length < depth) :
    (∃ cycle asked, (ofSourceWith (Loader.ofFunction text) depth source).run.run [] =
      (.error (.imports (.cycle cycle)), asked) ∧ IsCycle text program.imports cycle) ∨
    ∃ order asked, (ofSourceWith (Loader.ofFunction text) depth source).run.run [] =
      (Program.interface ⟨program.imports,
        order.flatMap (definitionsAt text) ++ program.definitions, program.actor⟩, asked) ∧
      Gathered text [] [] [] program.imports order asked := by
  have hmerge : Yields text program.imports
      (Import.merge (Loader.ofFunction text) depth [] [] program) [] _ :=
    merge_yields hpaths (.start program.imports) hdepth .nil trivial
  have hrun : (ofSourceWith (Loader.ofFunction text) depth source).run.run [] =
      (Import.merge (Loader.ofFunction text) depth [] [] program >>= fun merged => liftM
        (Program.interface ⟨program.imports, merged.1, program.actor⟩)).run.run [] := by
    unfold ofSourceWith
    rw [hsource]
    rfl
  rw [hrun, ExceptT.run_bind, StateT.run_bind]
  unfold Yields at hmerge
  rcases hmerged : (Import.merge (Loader.ofFunction text) depth [] [] program).run.run []
    with ⟨e | r, asked⟩
  · rw [hmerged] at hmerge
    obtain ⟨cycle, rfl, hcycle⟩ := hmerge
    exact .inl ⟨cycle, asked, rfl, hcycle⟩
  · rw [hmerged] at hmerge
    obtain ⟨order, rfl, hgathered⟩ := hmerge
    exact .inr ⟨order, asked, rfl, hgathered⟩

/-- Source with finitely many paths in reach, all behind which stand files that parse. It fails for a
cycle of imports exactly if some path in reach leads back to itself, and the way that it tells is
one. Otherwise every path in reach is asked for once, and what is compiled are the definitions of
every such file, behind those of all files that it imports, and last those of the source; the
service is that of the source. -/
theorem ofSourceWith_merges (hsource : Program.ofSource source = .ok program)
    (hpaths : ∀ p, Reaches text program.imports p →
      p ∈ paths ∧ ∃ file, programAt text p = .ok file)
    (hdepth : paths.length < depth) :
    let run := (ofSourceWith (Loader.ofFunction text) depth source).run.run []
    ((∃ cycle, run.1 = .error (.imports (.cycle cycle))) ↔
      ∃ p, Reaches text program.imports p ∧ TransGen (Leads text) p p) ∧
    (∀ cycle, run.1 = .error (.imports (.cycle cycle)) → IsCycle text program.imports cycle) ∧
    ((∀ p, Reaches text program.imports p → ¬ TransGen (Leads text) p p) →
      ∃ order : List String, order.Nodup ∧ (∀ p, p ∈ order ↔ Reaches text program.imports p) ∧
        (∀ p ∈ order, ∀ q, Leads text p q → List.Sublist [q, p] order) ∧
        run.2.Perm order ∧
        run.1 = Program.interface ⟨program.imports,
          order.flatMap (definitionsAt text) ++ program.definitions, program.actor⟩) := by
  intro run
  obtain ⟨cycle, asked, hrun, hcycle⟩ | ⟨order, asked, hrun, hgathered⟩ :=
    ofSourceWith_cases hsource hpaths hdepth
  · have hresult : run.1 = .error (.imports (.cycle cycle)) := congrArg Prod.fst hrun
    obtain ⟨p, hp, hback⟩ := hcycle.exists_transGen
    refine ⟨⟨fun _ => ⟨p, hp, hback⟩, fun _ => ⟨cycle, hresult⟩⟩, fun cycle' h => ?_,
      fun hacyclic => (hacyclic p hp hback).elim⟩
    cases hresult.symm.trans h
    exact hcycle
  · obtain ⟨⟨hnodup, hsettled, hasked⟩, _, hreached, hcomplete⟩ := hgathered
    rw [List.append_nil] at hnodup hsettled hasked
    simp only [List.append_nil] at hcomplete
    have hmem (p : String) : p ∈ order ↔ Reaches text program.imports p := by
      refine ⟨hreached p, fun ⟨i, hi, hp⟩ => ?_⟩
      exact List.mem_reverse.mp (hsettled.closed_star (hcomplete i hi) hp)
    have hnone (cycle : List String) : run.1 ≠ .error (.imports (.cycle cycle)) := by
      rw [congrArg Prod.fst hrun]
      exact interface_merged_ne_cycle (Program.ofSource_grammatical hsource) order cycle
    refine ⟨⟨fun ⟨cycle, h⟩ => (hnone cycle h).elim, fun ⟨p, hp, hback⟩ => ?_⟩,
      fun cycle h => (hnone cycle h).elim, fun _ => ⟨order, List.nodup_reverse.mp hnodup, hmem,
        fun p hp q hpq => ?_, congrArg Prod.snd hrun ▸ hasked, congrArg Prod.fst hrun⟩⟩
    · exact (hsettled.acyclic hnodup (List.mem_reverse.mpr ((hmem p).mpr hp)) hback).elim
    · exact order.reverse_reverse ▸ hsettled.sublist (List.mem_reverse.mpr hp) hpq

/-- What a program that parses imports can be read off it. -/
theorem imports_iff_mem {r : Except Failure Program} {names : List String}
    (h : r.map (fun file => file.imports.map (·.path)) = .ok names) :
    (∃ file, r = .ok file) ∧
      ∀ q, (∃ file, r = .ok file ∧ ∃ i ∈ file.imports, i.path = q) ↔ q ∈ names := by
  cases r with
  | error e => cases h
  | ok file =>
    cases h
    refine ⟨⟨file, rfl⟩, fun q => ⟨fun ⟨file', hfile, i, hi, hq⟩ => ?_, fun hq => ?_⟩⟩
    · cases hfile
      exact hq ▸ List.mem_map_of_mem hi
    · obtain ⟨i, hi, rfl⟩ := List.mem_map.mp hq
      exact ⟨file, rfl, i, hi, rfl⟩

def sharedTexts : List (String × String) :=
  [("user.did", "import \"base.did\"; type User = record \x7b id : Id \x7d;"),
   ("group.did", "import \"base.did\"; type Group = vec Id;"),
   ("base.did", "type Id = nat64; service : \x7b \x7d")]

def sharedText : String → Except Failure String := Loader.textOf sharedTexts

def sharedSource : String :=
  "import \"user.did\"; import \"base.did\"; import \"group.did\";" ++
  "type Both = record \x7b User; Group \x7d;"

/-- Both files import the third, which imports nothing. -/
theorem sharedText_leads {p : String} (hp : p ∈ ["user.did", "group.did", "base.did"]) :
    (∃ file, programAt sharedText p = .ok file) ∧
      ∀ q, Leads sharedText p q ↔ p ≠ "base.did" ∧ q = "base.did" := by
  have hnames : (programAt sharedText p).map (fun file => file.imports.map (·.path)) =
      .ok (if p = "base.did" then [] else ["base.did"]) := by
    simp only [List.mem_cons, List.not_mem_nil, or_false] at hp
    obtain rfl | rfl | rfl := hp <;> cbv
  obtain ⟨hfile, hleads⟩ := imports_iff_mem hnames
  refine ⟨hfile, fun q => (hleads q).trans ?_⟩
  by_cases h : p = "base.did" <;> simp [h]

theorem ofSourceWith_merges_shared : ∃ program, Program.ofSource sharedSource = .ok program ∧
    (∀ p, Reaches sharedText program.imports p → p ∈ ["user.did", "group.did", "base.did"] ∧
      ∃ file, programAt sharedText p = .ok file) ∧
    (∀ p, Reaches sharedText program.imports p → ¬ TransGen (Leads sharedText) p p) ∧
    ∃ order : List String, order.Nodup ∧ (∀ p, p ∈ order ↔ Reaches sharedText program.imports p) ∧
      (∀ p ∈ order, ∀ q, Leads sharedText p q → List.Sublist [q, p] order) ∧
      ((ofSourceWith (Loader.ofList sharedTexts) 4 sharedSource).run.run []).2.Perm order ∧
      ((ofSourceWith (Loader.ofList sharedTexts) 4 sharedSource).run.run []).1 =
        Program.interface ⟨program.imports,
          order.flatMap (definitionsAt sharedText) ++ program.definitions, program.actor⟩ := by
  have hsource : (Program.ofSource sharedSource).map (fun f => f.imports.map (·.path)) =
      .ok ["user.did", "base.did", "group.did"] := by cbv
  cases hprogram : Program.ofSource sharedSource with
  | error e =>
    rw [hprogram] at hsource
    cases hsource
  | ok program =>
    rw [hprogram] at hsource
    have himports : program.imports.map (·.path) = ["user.did", "base.did", "group.did"] :=
      Except.ok.inj hsource
    have hnames : ∀ p, Reaches sharedText program.imports p →
        p ∈ ["user.did", "group.did", "base.did"] := by
      rintro p ⟨i, hi, hp⟩
      induction hp with
      | refl =>
        have hmem := himports ▸ List.mem_map_of_mem (f := Import.path) hi
        simpa [or_comm] using hmem
      | tail _ hstep ih => simp [(((sharedText_leads ih).2 _).mp hstep).2]
    have hpaths := fun p hp => And.intro (hnames p hp) (sharedText_leads (hnames p hp)).1
    have hacyclic : ∀ p, Reaches sharedText program.imports p →
        ¬ TransGen (Leads sharedText) p p := by
      rintro p ⟨i, hi, hip⟩ hback
      obtain ⟨q, hpq, -⟩ := TransGen.head'_iff.mp hback
      obtain ⟨r, hpr, hrp⟩ := TransGen.tail'_iff.mp hback
      have hbase := ((sharedText_leads (hnames r ⟨i, hi, hip.trans hpr⟩)).2 p).mp hrp
      exact (((sharedText_leads (hnames p ⟨i, hi, hip⟩)).2 q).mp hpq).1 hbase.2
    rw [Loader.ofList_eq]
    exact ⟨program, rfl, hpaths, hacyclic,
      (ofSourceWith_merges hprogram hpaths (by decide)).2.2 hacyclic⟩

end Interface

end Didl.Idl
