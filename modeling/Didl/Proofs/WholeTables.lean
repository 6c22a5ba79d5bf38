import Didl.Proofs.Compiling
import Didl.Proofs.MessageRoundTrip
import Didl.Proofs.Providing

namespace Didl.Table
variable {t : Table} {entries : List Entry} {codes : List Int}

/-- The types that a code designates: the one at its place, and those that are written as it. -/
inductive Designates (t : Table) (code : Int) : Ty → Prop
  | place {head : Head} : t.typeOfCode code = .ok head → Designates t code head.type
  | written {type : Ty} : t.codeOf type = .ok code → Designates t code type

/-- A type shows in a table what its code shows among the entries, also where the table has the
entry twice and a writer would refer to the first one. -/
theorem isBisimulation_designates (hs : t.Sound) (h : t.entries.mapM t.toEntry = .ok entries) :
    IsBisimulation t.canonicalFormer (Entry.former (entries.map Entry.unnamed))
      fun type code => t.Designates code type := by
  intro type code hd
  cases hd with
  | written hcode =>
    obtain ⟨f, g, hf, hg, hfg⟩ := isBisimulation_codeOf hs h type code hcode
    exact ⟨f, g, hf, hg, hfg.imp fun _ _ => .written⟩
  | place hhead =>
    rcases typeOfCode_eq_ok hhead with ⟨p, hp, hneg, rfl⟩ | ⟨i, c, rfl, hc, rfl⟩
    · exact ⟨.prim p, .prim p, rfl, by simp [Entry.former, hneg, hp], .prim p⟩
    · obtain ⟨e, he, hrel⟩ := entry_of_written h hc
      have hraw : (entries.map Entry.unnamed)[i]? = some e.unnamed := by
        rw [List.getElem?_map, he]
        rfl
      refine ⟨.composite c.canonical, _, rfl, Entry.former_index hraw, .composite ?_⟩
      refine (hrel.comp e.unnamed_rel).imp fun type code hr => ?_
      obtain ⟨_, hcode, rfl⟩ := hr
      exact .written hcode

/-- Tables of as many entries with the same infinite trees at every place, and arguments with those
that the codes stand for. -/
structure SameTrees (t : Table) (codes : List Int) (t' : Table) (args : List Ty) : Prop where
  size : t'.size = t.size
  entries : ∀ (i : Nat) (c c' : Composite Ty), t.entries[i]? = some c → t'.entries[i]? = some c' →
    t'.unfoldingById (.composite c') = t.unfoldingById (.composite c)
  arguments : List.Forall₂ (fun arg code => ∃ head, t.typeOfCode code = .ok head ∧
    t'.unfoldingById arg = t.unfoldingById head.type) args codes

theorem sameTrees_of_rebuild (hs : t.Sound) (h : t.entries.mapM t.toEntry = .ok entries)
    (hpresent : Presentable entries codes)
    (hcodes : ∀ code ∈ codes, ∃ head, t.typeOfCode code = .ok head) {t' : Table} {args : List Ty}
    (hrebuild : rebuild (entries.map Entry.unnamed).toArray codes = .ok (t', args)) :
    t.SameTrees codes t' args := by
  obtain ⟨s, hr⟩ := rebuild_eq_ok hrebuild
  have hboth := (hr.isBisimulation_canonical hpresent.ascends).comp
    (isBisimulation_designates hs h).flip
  refine ⟨?_, fun i c c' hc hc' => ?_, ?_⟩
  · rw [size, hr.length_entries, List.length_map, length_written h, size]
  · obtain ⟨n, hk⟩ := hr.known_of_entry hc'
    exact hboth.unfold_eq ⟨i, .copy hk, .place (typeOfCode_index hc)⟩
  · refine ((List.forall₂_and_left _ _).mpr ⟨hcodes, hr.arguments⟩).flip.imp fun arg code h => ?_
    obtain ⟨⟨head, hhead⟩, hstands⟩ := h
    exact ⟨head, hhead, hboth.unfold_eq ⟨code, hstands, .place hhead⟩⟩

/-- What the entries of a table have to satisfy so that a reader takes them: the names in them are
bound, no number of a field and no name of a method comes twice, methods are functions, and an
opcode of no meaning is none that has one. -/
structure Writable (t : Table) : Prop where
  bound : ∀ c ∈ t.entries, ∀ x ∈ (Ty.composite c).names, t.isBound x = true
  labels : ∀ c ∈ t.entries, c.shape.Tidy
  methods : ∀ ms, .service ms ∈ t.entries →
    ∀ m ∈ ms, ∃ f, t.former m.type = some f ∧ f.shape.Callable

theorem Proper.writable (h : t.Proper) : t.Writable := by
  have hself : ∀ {c : Composite Ty}, c ∈ (Ty.composite c).parts := by
    intro c
    rw [Ty.parts_composite]
    exact List.mem_cons_self
  exact ⟨fun c hc => (h.entries c hc).bound, fun c hc => ((h.entries c hc).labels c hself).tidy,
    fun ms hms => (h.entries _ hms).methods ms hself⟩

/-- A table's prelude, with any codes of the table for arguments, can be written; read back, it ends
where it ends and gives the same trees, or is refused for its depth, which takes more entries than
levels. No buffer holds `2 ^ 63` bytes. -/
def SurvivesPrelude (t : Table) : Prop :=
  ∀ codes : List Int, (∀ code ∈ codes, (∃ p : Prim, code = p.opcode) ∨ ∃ i < t.size, code = (i : Int)) →
    ∃ bytes, t.preludeBytes codes = .ok bytes ∧ (bytes.length < 2 ^ 63 → ∀ payload,
      (∃ t' args, readPrelude (bytes ++ payload) = (.ok (t', args), payload) ∧
        t.SameTrees codes t' args) ∨
      readPrelude (bytes ++ payload) = (.error .tooDeep, payload) ∧ maxDepth < t.size)

theorem Exact.survivesPrelude {types : List Ty} (he : t.Exact types) (hw : t.Writable) :
    t.SurvivesPrelude := by
  intro codes hcodes
  have hheads : ∀ code ∈ codes, ∃ head, t.typeOfCode code = .ok head := by
    intro code hcode
    rcases hcodes code hcode with ⟨p, rfl⟩ | ⟨i, hi, rfl⟩
    · exact ⟨_, typeOfCode_opcode p⟩
    · exact ⟨_, typeOfCode_index (List.getElem?_eq_getElem hi)⟩
  obtain ⟨entries, hall⟩ := exists_forall₂ fun c hc => toEntry_returns he hc (hw.bound c hc)
  have hentries := except_mapM_eq_ok.mpr hall
  have hpresent : Presentable entries codes := by
    refine presentable_of_written he.sound hentries hw.labels hw.methods fun code hcode => ?_
    obtain ⟨head, hhead⟩ := hheads code hcode
    exact knownCode_of_typeOfCode hhead
  refine ⟨_, except_bind_ok hentries rfl, fun hlt payload => ?_⟩
  have hread := readPrelude_append hpresent hlt payload
  cases hrebuild : rebuild (entries.map Entry.unnamed).toArray codes with
  | error e =>
    rw [hrebuild] at hread
    obtain ⟨rfl, hmany⟩ := Message.rebuild_presentable_error hpresent hrebuild
    rw [length_written hentries] at hmany
    exact .inr ⟨hread, hmany⟩
  | ok r =>
    rw [hrebuild] at hread
    exact .inl ⟨r.1, r.2, hread, sameTrees_of_rebuild he.sound hentries hpresent hheads hrebuild⟩

def listCalls : List Call :=
  [.registerLabel "List" (.composite (.record
      [⟨1, none, .composite (.opt (.named "List"))⟩, ⟨0, none, .prim .nat8⟩])),
    .register (.composite (.service [⟨"get", .composite (.func [] [.named "List"] [.query])⟩]))]

theorem listCalls_writable : (Call.runAll listCalls {}).Writable := by
  have htable : Call.runAll listCalls {} =
      ⟨[.record [⟨1, none, .composite (.opt (.named "List"))⟩, ⟨0, none, .prim .nat8⟩],
        .opt (.named "List"), .service [⟨"get", .composite (.func [] [.named "List"] [.query])⟩],
        .func [] [.named "List"] [.query]], [("List", 0)]⟩ := by cbv
  rw [htable]
  refine ⟨by decide, ?_, fun ms hms m hm => ?_⟩
  · simp [Composite.shape, Shape.Tidy]
  · simp only [List.mem_cons, reduceCtorEq, Composite.service.injEq, List.not_mem_nil, or_false,
      false_or] at hms
    obtain rfl := hms
    obtain rfl := List.mem_singleton.mp hm
    exact ⟨_, rfl, trivial⟩

open Call in
/-- Every table that calls have built and every table of source that compiles survives its own
prelude. -/
theorem preludes_survive :
    (∀ calls : List Call, (runAll calls {}).Writable → (runAll calls {}).SurvivesPrelude) ∧
      ∀ source interface, Idl.Interface.ofSource source = .ok interface →
        interface.table.SurvivesPrelude := by
  constructor
  · intro calls hw
    exact (runAll_exact .empty calls).survivesPrelude hw
  · intro source interface h
    obtain ⟨types, hexact⟩ := Idl.Interface.ofSource_exact h
    exact hexact.survivesPrelude (Idl.Interface.ofSource_wellFormed h).table.writable

theorem preludes_survive_list :
    (Call.runAll listCalls {}).Writable ∧
    (Call.runAll listCalls {}).preludeBytes [2, 0, -5] = .ok
      [68, 73, 68, 76, 4, 108, 2, 0, 123, 1, 1, 110, 0, 105, 1, 3, 103, 101, 116, 3, 106, 0, 1, 0, 1,
        1, 3, 2, 0, 123] ∧
    (∃ t' args, readPrelude [68, 73, 68, 76, 4, 108, 2, 0, 123, 1, 1, 110, 0, 105, 1, 3, 103, 101, 116,
        3, 106, 0, 1, 0, 1, 1, 3, 2, 0, 123, 7] = (.ok (t', args), [7]) ∧
      (Call.runAll listCalls {}).SameTrees [2, 0, -5] t' args) ∧
    ∃ interface, Idl.Interface.ofSource "type List = record \x7b nat8; opt List \x7d;" = .ok interface ∧
      interface.table.SurvivesPrelude := by
  have hbytes : (Call.runAll listCalls {}).preludeBytes [2, 0, -5] = .ok
      [68, 73, 68, 76, 4, 108, 2, 0, 123, 1, 1, 110, 0, 105, 1, 3, 103, 101, 116, 3, 106, 0, 1, 0, 1,
        1, 3, 2, 0, 123] := by cbv
  have hsize : (Call.runAll listCalls {}).size = 4 := by cbv
  have hcodes : ∀ code ∈ [2, 0, -5], (∃ p : Prim, code = p.opcode) ∨
      ∃ i < (Call.runAll listCalls {}).size, code = (i : Int) := by
    rw [hsize]
    intro code hcode
    simp only [List.mem_cons, List.not_mem_nil, or_false] at hcode
    rcases hcode with rfl | rfl | rfl
    · exact .inr ⟨2, by decide, rfl⟩
    · exact .inr ⟨0, by decide, rfl⟩
    · exact .inl ⟨.nat8, rfl⟩
  obtain ⟨bytes, hwritten, hread⟩ :=
    preludes_survive.1 listCalls listCalls_writable [2, 0, -5] hcodes
  cases hbytes.symm.trans hwritten
  rcases hread (by decide) [7] with hok | ⟨_, hmany⟩
  · refine ⟨listCalls_writable, hbytes, hok, ?_⟩
    have hcompiles :
        (Idl.Interface.ofSource "type List = record \x7b nat8; opt List \x7d;").isOk = true := by cbv
    cases hsource : Idl.Interface.ofSource "type List = record \x7b nat8; opt List \x7d;" with
    | error e =>
      rw [hsource] at hcompiles
      cases hcompiles
    | ok interface => exact ⟨interface, rfl, preludes_survive.2 _ interface hsource⟩
  · rw [hsize] at hmany
    exact absurd hmany (by decide)

end Didl.Table
