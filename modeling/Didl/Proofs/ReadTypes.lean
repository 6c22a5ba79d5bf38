import Didl.Proofs.Presenting

namespace Didl

theorem Shape.Ascends.tidy {s : Shape} (h : s.Ascends) : s.Tidy := by
  cases s with
  | record ids | variant ids | service names => exact h.imp Std.ne_of_lt
  | _ => exact h

namespace Entry
variable {bytes rest : List UInt8}

theorem readFields_ascends {fs : List (Field Int)} (h : readFields bytes = (.ok fs, rest)) :
    (fs.map (·.id)).Pairwise (· < ·) := by
  obtain ⟨count, _, _, h⟩ := Step.bind_eq_ok.mp h
  rw [readFieldsAfter_eq] at h
  exact List.pairwise_map.mpr (readAscending_ascends (fun _ _ => rfl) .nil h)

theorem readMethods_ascends {ms : List (Method Int)} (h : readMethods bytes = (.ok ms, rest)) :
    (ms.map (·.name)).Pairwise (· < ·) := by
  obtain ⟨count, _, _, h⟩ := Step.bind_eq_ok.mp h
  rw [readMethodsAfter_eq] at h
  exact List.pairwise_map.mpr (readAscending_ascends (fun _ _ => rfl) .nil h)

/-- The labels of an entry that was read ascend, and an opcode that was kept has no meaning. -/
theorem read_ascends {e : Entry} (h : read bytes = (.ok e, rest)) : e.shape.Ascends := by
  unfold read at h
  obtain ⟨opcode, bytes₁, _, h⟩ := Step.bind_eq_ok.mp h
  split at h
  · obtain ⟨code, _, _, h⟩ := Step.bind_eq_ok.mp h
    cases h
    trivial
  split at h
  · obtain ⟨code, _, _, h⟩ := Step.bind_eq_ok.mp h
    cases h
    trivial
  split at h
  · obtain ⟨fs, _, hfs, h⟩ := Step.bind_eq_ok.mp h
    cases h
    exact readFields_ascends hfs
  split at h
  · obtain ⟨fs, _, hfs, h⟩ := Step.bind_eq_ok.mp h
    cases h
    exact readFields_ascends hfs
  split at h
  · obtain ⟨args, _, _, h⟩ := Step.bind_eq_ok.mp h
    obtain ⟨results, _, _, h⟩ := Step.bind_eq_ok.mp h
    obtain ⟨count, _, _, h⟩ := Step.bind_eq_ok.mp h
    obtain ⟨modes, _, _, h⟩ := Step.bind_eq_ok.mp h
    cases h
    trivial
  split at h
  · obtain ⟨ms, _, hms, h⟩ := Step.bind_eq_ok.mp h
    cases h
    exact readMethods_ascends hms
  split at h
  · cases h
  · rename_i hopcode
    obtain ⟨payload, _, _, h⟩ := Step.bind_eq_ok.mp h
    cases h
    rw [not_or, Option.not_isSome_iff_eq_none] at hopcode
    exact ⟨Int.not_le.mp hopcode.1, hopcode.2, by simp [*]⟩

theorem former_of_isFunction {raw : List Entry} {code : Int}
    (h : isFunction raw.toArray code = true) :
    ∃ f, former raw code = some f ∧ f.shape.Callable := by
  unfold isFunction at h
  split at h
  · cases h
  · rename_i hpos
    rw [List.getElem?_toArray] at h
    cases he : raw[code.toNat]? with
    | none =>
      rw [he] at h
      cases h
    | some e =>
      rw [he] at h
      refine ⟨.composite e, by rw [former, if_neg hpos, he]; rfl, ?_⟩
      cases e <;> trivial

end Entry

namespace Table

theorem Announces.ascends {bytes rest : List UInt8} {raw : List Entry} {codes : List Int}
    (h : Announces bytes raw codes rest) : ∀ e ∈ raw, e.shape.Ascends := by
  cases h with
  | intro _ hrun _ => exact hrun.forall_mem fun _ _ _ => Entry.read_ascends

namespace Rebuilds
open Rebuilt
variable {raw : List Entry} {codes : List Int} {s : Rebuilt} {t : Table} {args : List Ty}
  {type u : Ty} {code : Int}

/-- From a type that stands for a code every step leads to such types. -/
theorem stands_of_reach (h : Rebuilds raw.toArray codes s t args) (hs : s.Stands code type)
    (hu : t.Reach type u) : ∃ code, s.Stands code u := by
  refine hu.invariant (P := fun u => ∃ code, s.Stands code u) ?_ ⟨code, hs⟩
  rintro u f ⟨code, hcode⟩ hf v hv
  obtain ⟨f', g, hf', _, hfg⟩ := h.isBisimulation u code hcode
  rw [hf] at hf'
  cases hf'
  obtain ⟨code', _, hcode'⟩ := exists_of_mem_right (Former.rel_iff.mp hfg).2.flip hv
  exact ⟨code', hcode'⟩

theorem closed (h : Rebuilds raw.toArray codes s t args) (hs : s.Stands code type) :
    t.Closed type := by
  intro x hx
  obtain ⟨code, hcode⟩ := h.stands_of_reach hs hx
  cases hcode with
  | named hi => exact Option.isSome_iff_exists.mpr ⟨_, h.labelCode?_eq_some.mpr ⟨_, hi, rfl, rfl⟩⟩

/-- What a type shows is one of the entries. -/
theorem mem_entries (h : Rebuilds raw.toArray codes s t args) (hs : s.Stands code type)
    {c : Composite Ty} (hc : t.former type = some (.composite c)) : c ∈ t.entries := by
  cases hs with
  | prim => cases hc
  | @copy i d n hk =>
    cases hc
    exact List.mem_of_getElem? (h.entry_of_known hk)
  | @named i hi =>
    obtain ⟨head, hhead, hf⟩ := former_eq_some.mp hc
    have hcode := h.labelCode?_eq_some.mpr ⟨i, hi, rfl, rfl⟩
    simp only [follow, Table.resolve, hcode] at hhead
    rcases typeOfCode_eq_ok hhead with ⟨p, _, _, rfl⟩ | ⟨j, d, _, hd, rfl⟩
    · cases hf
    · cases hf
      exact List.mem_of_getElem? hd

theorem legible (h : Rebuilds raw.toArray codes s t args) (hs : s.Stands code type)
    (hraw : ∀ e ∈ raw, e.shape.Ascends)
    (hmethods : ∀ e ∈ raw, ∀ m ∈ e.methods, Entry.isFunction raw.toArray m.type = true) :
    t.Legible type := by
  have hentry : ∀ {code : Int} {e : Entry}, Entry.former raw code = some (.composite e) → e ∈ raw := by
    intro code e he
    unfold Entry.former at he
    split at he
    · obtain ⟨_, _, hp⟩ := Option.map_eq_some_iff.mp he
      cases hp
    · obtain ⟨_, he, heq⟩ := Option.map_eq_some_iff.mp he
      cases heq
      exact List.mem_of_getElem? he
  constructor
  · intro u f hu hf
    obtain ⟨code, hcode⟩ := h.stands_of_reach hs hu
    obtain ⟨f', g, hf', hg, hfg⟩ := h.isBisimulation u code hcode
    rw [hf] at hf'
    cases hf'
    rw [(Former.rel_iff.mp hfg).1]
    cases g with
    | prim p => trivial
    | composite e => exact (hraw e (hentry hg)).tidy
  · intro u ms hu hf m hm
    obtain ⟨code, hcode⟩ := h.stands_of_reach hs hu
    obtain ⟨f', g, hf', hg, hfg⟩ := h.isBisimulation u code hcode
    rw [hf] at hf'
    cases hf'
    cases hfg with
    | composite hfg =>
      cases hfg with
      | service hms =>
        obtain ⟨m', hm', _, hstands⟩ := exists_of_mem_right hms.flip hm
        obtain ⟨k, hk, hcallable⟩ := Entry.former_of_isFunction (hmethods _ (hentry hg) m' hm')
        obtain ⟨f, g, hf, hg, hfg⟩ := h.isBisimulation _ _ hstands
        rw [hk] at hg
        cases hg
        exact ⟨f, hf, by rwa [(Former.rel_iff.mp hfg).1]⟩

end Rebuilds

/-- What is read is whole: the types of the arguments are closed, a reader would take them again,
and all that they lead to is listed. -/
theorem readPrelude_types {bytes rest : List UInt8} {t : Table} {types : List Ty}
    (h : readPrelude bytes = (.ok (t, types), rest)) :
    t.Sound ∧ ∀ type ∈ types, t.Closed type ∧ t.Legible type ∧
      ∀ u c, t.Reach type u → t.former u = some (.composite c) → c ∈ t.entries := by
  obtain ⟨raw, codes, hannounces, ⟨_, hmethods⟩, _, hbuilt⟩ := readPrelude_eq_ok h
  obtain ⟨s, hs⟩ := rebuild_eq_ok hbuilt
  refine ⟨hs.sound, fun type htype => ?_⟩
  obtain ⟨code, _, hcode⟩ := exists_of_mem_right hs.arguments htype
  refine ⟨hs.closed hcode,
    hs.legible hcode hannounces.ascends (Entry.checkMethods_eq_ok.mp hmethods), ?_⟩
  intro u c hu hc
  obtain ⟨_, hu⟩ := hs.stands_of_reach hcode hu
  exact hs.mem_entries hu hc

end Table

end Didl
