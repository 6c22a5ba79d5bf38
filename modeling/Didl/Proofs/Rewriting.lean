import Didl.Proofs.WholeTables

namespace Didl

/-- The names of fields are not written. -/
theorem Entry.bytes_unnamed (e : Entry) : e.unnamed.bytes = e.bytes := by
  have hfields : ∀ fs : List (Field Int),
      listBytes fieldBytes (fs.map fun f => ⟨f.id, none, f.type⟩) = listBytes fieldBytes fs := by
    intro fs
    rw [listBytes, listBytes, List.length_map, List.flatMap_map]
    rfl
  cases e with
  | record fs => rw [unnamed, bytes, bytes, hfields]
  | variant fs => rw [unnamed, bytes, bytes, hfields]
  | opt | vec | func | service | future => rfl

theorem Entry.listBytes_unnamed (entries : List Entry) :
    listBytes bytes (entries.map unnamed) = listBytes bytes entries := by
  rw [listBytes, listBytes, List.length_map, List.flatMap_map]
  simp only [bytes_unnamed]

namespace Table
variable {t : Table} {raw : List Entry} {codes : List Int} {s : Rebuilt} {args : List Ty}

/-- Entries and codes that declare what others do: as many entries, at every place the same infinite
tree, in which a type of no known meaning has its opcode and its payload, and arguments with the
trees of the others. -/
structure Redeclares (raw : List Entry) (codes : List Int) (raw' : List Entry) (codes' : List Int) :
    Prop where
  length : raw'.length = raw.length
  entries : ∀ i < raw.length,
    unfold (Entry.former raw') (i : Int) = unfold (Entry.former raw) (i : Int)
  arguments : List.Forall₂
    (fun code' code => unfold (Entry.former raw') code' = unfold (Entry.former raw) code) codes' codes

namespace Rebuilds
open Rebuilt

/-- What stands for a code of the entries that were read has a code again. -/
theorem codeOf_returns (h : Rebuilds raw.toArray codes s t args) {code : Int} {type : Ty}
    (hs : s.Stands code type) : ∃ code', t.codeOf type = .ok code' := by
  cases hs with
  | @prim _ p => exact ⟨p.opcode, rfl⟩
  | @named i hi => exact ⟨i, by simp only [codeOf, h.labelCode?_eq_some.mpr ⟨i, hi, rfl, rfl⟩]⟩
  | @copy i c n hk =>
    have hc := h.entry_of_known hk
    cases hindex : t.indexOf? c with
    | some j => exact ⟨j, by simp only [codeOf, hindex]⟩
    | none =>
      have hnot := List.findIdx?_eq_none_iff.mp hindex c (List.mem_of_getElem? hc)
      rw [Ty.same_refl] at hnot
      cases hnot

theorem toEntry_returns (h : Rebuilds raw.toArray codes s t args) {c : Composite Ty}
    (hc : c ∈ t.entries) : ∃ e, t.toEntry c = .ok e := by
  obtain ⟨i, n, hk⟩ := h.known_of_mem hc
  obtain ⟨e, _, hr⟩ := h.faithful.entry i c n hk
  refine toEntry_of_codes fun m hm => ?_
  obtain ⟨code, _, hcode⟩ := exists_of_mem_right hr.members hm
  exact h.codeOf_returns hcode

theorem args_codes (h : Rebuilds raw.toArray codes s t args) :
    ∃ codes', List.Forall₂ (fun type code => t.codeOf type = .ok code) args codes' :=
  exists_forall₂ fun type htype => by
    obtain ⟨code, _, hstands⟩ := exists_of_mem_right h.arguments htype
    exact h.codeOf_returns hstands

section Written
variable {entries : List Entry} {codes' : List Int}

theorem redeclares (h : Rebuilds raw.toArray codes s t args) (hraw : ∀ e ∈ raw, e.shape.Ascends)
    (hentries : t.entries.mapM t.toEntry = .ok entries)
    (hcodes : List.Forall₂ (fun type code => t.codeOf type = .ok code) args codes') :
    Redeclares raw codes (entries.map Entry.unnamed) codes' := by
  -- a code that is written and one that was read meet in a type of the table
  have hboth := (isBisimulation_designates h.sound hentries).flip.comp
    (h.isBisimulation_canonical hraw)
  refine ⟨?_, fun i hi => ?_, ?_⟩
  · rw [List.length_map, length_written hentries, h.length_entries]
  · obtain ⟨c, n, hc, hk⟩ := h.entry hi
    exact hboth.unfold_eq ⟨.composite c, .place (typeOfCode_index hc), .copy hk⟩
  · refine (forall₂_comp hcodes.flip h.arguments.flip).imp fun code' code hmeet => ?_
    obtain ⟨type, hcode, hstands⟩ := hmeet
    exact hboth.unfold_eq ⟨type, .written hcode, hstands⟩

theorem presentable (h : Rebuilds raw.toArray codes s t args) (hraw : ∀ e ∈ raw, e.shape.Ascends)
    (hmethods : ∀ e ∈ raw, ∀ m ∈ e.methods, Entry.isFunction raw.toArray m.type = true)
    (hentries : t.entries.mapM t.toEntry = .ok entries)
    (hcodes : List.Forall₂ (fun type code => t.codeOf type = .ok code) args codes') :
    Presentable entries codes' := by
  have hlegible : ∀ c ∈ t.entries, t.Legible (.composite c) := by
    intro c hc
    obtain ⟨i, n, hk⟩ := h.known_of_mem hc
    exact h.legible (.copy hk) hraw hmethods
  refine presentable_of_written h.sound hentries (fun c hc => (hlegible c hc).labels _ _ .refl rfl)
    (fun ms hms => (hlegible _ hms).methods _ ms .refl rfl) fun code hcode => ?_
  obtain ⟨type, _, htype⟩ := exists_of_mem_right hcodes hcode
  exact knownCode_of_codeOf h.sound htype

end Written

end Rebuilds

def twins : Table :=
  ⟨[.record [⟨0, none, .composite (.opt (.named "table0"))⟩,
      ⟨1, none, .composite (.opt (.named "table0"))⟩],
    .opt (.named "table0"), .opt (.named "table0"), .future (-25) [9]], [("table0", 0)]⟩

/-- A table that was read can be written: every entry, every argument's code, the whole prelude. What
is written declares what was read, and a reader finds it; no buffer holds `2 ^ 63` bytes. -/
theorem readPrelude_rewritten {bytes rest : List UInt8}
    (h : readPrelude bytes = (.ok (t, args), rest)) :
    (∀ c ∈ t.entries, ∃ out, t.entryBytes (.composite c) = .ok out) ∧
    ∃ codes', List.Forall₂ (fun type code => t.codeOf type = .ok code) args codes' ∧
    ∃ raw codes raw', Announces bytes raw codes rest ∧ Redeclares raw codes raw' codes' ∧
    ∃ out, t.preludeBytes codes' = .ok out ∧
      out = magic ++ Entry.listBytes Entry.bytes raw' ++ Entry.listBytes Varint.ofInt codes' ∧
      (out.length < 2 ^ 63 → ∀ payload, Announces (out ++ payload) raw' codes' payload) := by
  obtain ⟨raw, codes, hannounces, ⟨_, hmethods⟩, _, hbuilt⟩ := readPrelude_eq_ok h
  obtain ⟨s, hs⟩ := rebuild_eq_ok hbuilt
  have hraw := hannounces.ascends
  obtain ⟨codes', hcodes⟩ := hs.args_codes
  obtain ⟨entries, hall⟩ := exists_forall₂ fun c hc => hs.toEntry_returns (c := c) hc
  have hentries := except_mapM_eq_ok.mpr hall
  have hpresent := hs.presentable hraw (Entry.checkMethods_eq_ok.mp hmethods) hentries hcodes
  refine ⟨fun c hc => ?_, codes', hcodes, raw, codes, entries.map Entry.unnamed, hannounces,
    hs.redeclares hraw hentries hcodes, _, except_bind_ok hentries rfl, ?_, ?_⟩
  · obtain ⟨e, he⟩ := hs.toEntry_returns hc
    exact ⟨_, except_bind_ok he rfl⟩
  · rw [Entry.listBytes_unnamed]
  · exact announces_append hpresent

/-- The second of two equal entries is written as the first one where it was referred to. -/
theorem readPrelude_rewritten_twins :
    readPrelude [68, 73, 68, 76, 4, 108, 2, 0, 1, 1, 2, 110, 0, 110, 0, 103, 1, 9, 2, 2, 3, 7] =
      (.ok (twins, [.composite (.opt (.named "table0")), .composite (.future (-25) [9])]), [7]) ∧
    twins.preludeBytes [1, 3] =
      .ok [68, 73, 68, 76, 4, 108, 2, 0, 1, 1, 1, 110, 0, 110, 0, 103, 1, 9, 2, 1, 3] ∧
    ∃ raw codes raw', Announces
        [68, 73, 68, 76, 4, 108, 2, 0, 1, 1, 2, 110, 0, 110, 0, 103, 1, 9, 2, 2, 3, 7] raw codes [7] ∧
      Redeclares raw codes raw' [1, 3] ∧ ∀ payload, Announces
        ([68, 73, 68, 76, 4, 108, 2, 0, 1, 1, 1, 110, 0, 110, 0, 103, 1, 9, 2, 1, 3] ++ payload)
        raw' [1, 3] payload := by
  have hread : readPrelude
      [68, 73, 68, 76, 4, 108, 2, 0, 1, 1, 2, 110, 0, 110, 0, 103, 1, 9, 2, 2, 3, 7] = (.ok (twins,
        [.composite (.opt (.named "table0")), .composite (.future (-25) [9])]), [7]) := by cbv
  have hout : twins.preludeBytes [1, 3] =
      .ok [68, 73, 68, 76, 4, 108, 2, 0, 1, 1, 1, 110, 0, 110, 0, 103, 1, 9, 2, 1, 3] := by cbv
  have hargs : [.composite (.opt (.named "table0")), .composite (.future (-25) [9])].mapM
      twins.codeOf = .ok [1, 3] := by cbv
  obtain ⟨_, codes', hcodes, raw, codes, raw', hraw, hredeclares, out, hout', _, hback⟩ :=
    readPrelude_rewritten hread
  cases hargs.symm.trans (except_mapM_eq_ok.mpr hcodes)
  cases hout.symm.trans hout'
  exact ⟨hread, hout, raw, codes, raw', hraw, hredeclares, hback (by decide)⟩

end Table

end Didl
