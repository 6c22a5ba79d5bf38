import Didl.Proofs.Unfolding
import Didl.Proofs.Tables
import Didl.Proofs.Rebuilding
import Didl.Proofs.Steps

namespace Didl

theorem entryLabel_inj {i j : Nat} (h : entryLabel i = entryLabel j) : i = j := by
  have hchars := congrArg String.toList h
  simp only [entryLabel, String.toList_append, List.append_cancel_left_eq,
    Nat.toString_eq_repr, Nat.toList_repr] at hchars
  have hdigits := congrArg (Nat.ofDigitChars 10 · 0) hchars
  simpa only [Nat.ofDigitChars_toDigits (b := 10) (by omega) (by omega)] using hdigits

def Entry.former (raw : List Entry) (code : Int) : Option (Former Int) :=
  if code < 0 then (Prim.ofOpcode? code).map .prim else raw[code.toNat]?.map .composite

theorem Entry.former_index {raw : List Entry} {i : Nat} {e : Entry} (h : raw[i]? = some e) :
    Entry.former raw i = some (.composite e) := by
  have hi : ¬ (i : Int) < 0 := by omega
  simp [Entry.former, hi, h]

namespace Table

def occurring (t : Table) (types : List Ty) : List String :=
  (t.entries.map Ty.composite ++ types).flatMap Ty.names

namespace Rebuilds
open Rebuilt
variable {raw : List Entry} {codes : List Int} {s : Rebuilt} {t : Table} {args : List Ty}

theorem mem_labels (h : Rebuilds raw.toArray codes s t args) {x : String} {code : Int} :
    (x, code) ∈ t.labels ↔ ∃ i : Nat, s.Named i ∧ x = entryLabel i ∧ code = i := by
  rw [h.labels]
  simp only [List.mem_map, List.mem_filter, List.mem_range, Prod.mk.injEq, Named]
  constructor
  · rintro ⟨i, ⟨_, hi⟩, rfl, rfl⟩
    refine ⟨i, ?_, rfl, rfl⟩
    cases hs : s.labelled[i]? <;> simp_all
  · rintro ⟨i, hi, rfl, rfl⟩
    have hlt := (Array.getElem?_eq_some_iff.mp hi).1
    rw [h.faithful.labelled_size] at hlt
    exact ⟨i, ⟨hlt, by simp [hi]⟩, rfl, rfl⟩

theorem lt_of_named (h : Rebuilds raw.toArray codes s t args) {i : Nat} (hi : s.Named i) :
    i < raw.length := by
  have hlt := (Array.getElem?_eq_some_iff.mp hi).1
  rwa [h.faithful.labelled_size, List.size_toArray] at hlt

theorem labelCode?_eq_some (h : Rebuilds raw.toArray codes s t args) {x : String} {code : Int} :
    t.labelCode? x = some code ↔ ∃ i : Nat, s.Named i ∧ x = entryLabel i ∧ code = i := by
  have hmem : t.labelCode? x = some code → (x, code) ∈ t.labels := by
    intro hx
    obtain ⟨before, after, he, _⟩ := List.lookup_eq_some_iff.mp hx
    rw [he]
    simp
  constructor
  · exact fun hx => h.mem_labels.mp (hmem hx)
  · rintro ⟨i, hi, rfl, rfl⟩
    cases hx : t.labelCode? (entryLabel i) with
    | none =>
      have hnot := List.lookup_eq_none_iff.mp hx _ (h.mem_labels.mpr ⟨i, hi, rfl, rfl⟩)
      simp at hnot
    | some code =>
      have hcode : (entryLabel i, code) ∈ t.labels := by
        obtain ⟨before, after, he, _⟩ := List.lookup_eq_some_iff.mp hx
        rw [he]
        simp
      obtain ⟨j, _, hj, rfl⟩ := h.mem_labels.mp hcode
      rw [entryLabel_inj hj]

theorem length_entries (h : Rebuilds raw.toArray codes s t args) :
    t.entries.length = raw.length := by
  simpa using h.entries.length_eq.symm

theorem entry (h : Rebuilds raw.toArray codes s t args) {i : Nat} (hi : i < raw.length) :
    ∃ c n, t.entries[i]? = some c ∧ s.known i = some (c, n) := by
  have hlength := h.length_entries
  have hi' : i < t.entries.length := by omega
  obtain ⟨n, hn⟩ := (List.forall₂_iff_get.mp h.entries).2 i (by simpa using hi) hi'
  refine ⟨t.entries[i], n, List.getElem?_eq_getElem hi', ?_⟩
  simpa using hn

theorem entry_of_known (h : Rebuilds raw.toArray codes s t args) {i n : Nat} {c : Composite Ty}
    (hk : s.known i = some (c, n)) : t.entries[i]? = some c := by
  have hi := h.faithful.lt_size hk
  obtain ⟨c', n', hc, hk'⟩ := h.entry (by simpa using hi)
  rw [hk] at hk'
  cases hk'
  exact hc

theorem known_of_entry (h : Rebuilds raw.toArray codes s t args) {i : Nat} {c : Composite Ty}
    (hc : t.entries[i]? = some c) : ∃ n, s.known i = some (c, n) := by
  have hi := (List.getElem?_eq_some_iff.mp hc).1
  rw [h.length_entries] at hi
  obtain ⟨c', n, hc', hk⟩ := h.entry hi
  rw [hc] at hc'
  cases hc'
  exact ⟨n, hk⟩

theorem known_of_mem (h : Rebuilds raw.toArray codes s t args) {c : Composite Ty}
    (hc : c ∈ t.entries) : ∃ i n, s.known i = some (c, n) := by
  obtain ⟨i, hi⟩ := List.mem_iff_getElem?.mp hc
  exact ⟨i, h.known_of_entry hi⟩

/-- A type that stands for a code shows in the table what the code shows in the graph. -/
theorem isBisimulation (h : Rebuilds raw.toArray codes s t args) :
    IsBisimulation t.former (Entry.former raw) fun type code => s.Stands code type := by
  have hentry : ∀ {i n : Nat} {c : Composite Ty}, s.known i = some (c, n) →
      ∃ e, Entry.former raw i = some (.composite e) ∧
        c.Rel (fun type code => s.Stands code type) e := by
    intro i n c hk
    obtain ⟨e, he, hr⟩ := h.faithful.entry i c n hk
    exact ⟨e, Entry.former_index (by simpa using he), hr.flip⟩
  intro type code hs
  cases hs with
  | @prim _ p hp hneg =>
    exact ⟨.prim p, .prim p, rfl, by simp [Entry.former, hneg, hp], .prim p⟩
  | @named i hi =>
    obtain ⟨c, n, hc, hk⟩ := h.entry (h.lt_of_named hi)
    obtain ⟨e, he, hr⟩ := hentry hk
    refine ⟨.composite c, .composite e, ?_, he, .composite hr⟩
    refine former_eq_some.mpr ⟨.composite c, ?_, rfl⟩
    simp only [follow, Table.resolve, h.labelCode?_eq_some.mpr ⟨i, hi, rfl, rfl⟩]
    exact typeOfCode_index hc
  | @copy i c n hk =>
    obtain ⟨e, he, hr⟩ := hentry hk
    exact ⟨.composite c, .composite e, rfl, he, .composite hr⟩

theorem names_named (h : Rebuilds raw.toArray codes s t args) {type : Ty} {code : Int}
    (hs : s.Stands code type) : ∀ x ∈ type.names, ∃ i, s.Named i ∧ x = entryLabel i := by
  induction type using Ty.induct generalizing code with
  | prim p => simp [Ty.names, Ty.fold]
  | named x =>
    cases hs with
    | named hi =>
      intro x hx
      exact ⟨_, hi, by simpa [Ty.names, Ty.fold] using hx⟩
  | composite c ih =>
    cases hs with
    | copy hk =>
      obtain ⟨e, _, hr⟩ := h.faithful.entry _ _ _ hk
      intro x hx
      rw [Ty.names_composite] at hx
      obtain ⟨m, hm, hx⟩ := List.mem_flatMap.mp hx
      obtain ⟨code, _, hcode⟩ := exists_of_mem_right hr.members hm
      exact ih m hm hcode x hx

theorem mem_occurring (h : Rebuilds raw.toArray codes s t args) {x : String} :
    x ∈ t.occurring args ↔ ∃ i, s.Named i ∧ x = entryLabel i := by
  simp only [occurring, List.mem_flatMap, List.mem_append, List.mem_map]
  constructor
  · rintro ⟨type, ⟨c, hc, rfl⟩ | htype, hx⟩
    · obtain ⟨i, n, hk⟩ := h.known_of_mem hc
      exact h.names_named (.copy hk) x hx
    · obtain ⟨code, _, hcode⟩ := exists_of_mem_right h.arguments htype
      exact h.names_named hcode x hx
  · rintro ⟨i, hi, rfl⟩
    have hself : entryLabel i ∈ (Ty.named (entryLabel i)).names := List.mem_singleton_self _
    rcases h.occurs i hi with ⟨j, c, n, hk, hm⟩ | hm
    · refine ⟨.composite c, .inl ⟨c, List.mem_of_getElem? (h.entry_of_known hk), rfl⟩, ?_⟩
      rw [Ty.names_composite]
      exact List.mem_flatMap.mpr ⟨_, hm, hself⟩
    · exact ⟨_, .inr hm, hself⟩

theorem sound (h : Rebuilds raw.toArray codes s t args) : t.Sound := by
  intro x code hx
  obtain ⟨i, hi, _, rfl⟩ := h.labelCode?_eq_some.mp hx
  obtain ⟨c, n, hc, _⟩ := h.entry (h.lt_of_named hi)
  exact ⟨.composite c, typeOfCode_index hc⟩

end Rebuilds

theorem magic_append {bytes tag rest : List UInt8}
    (h : Reader.bytes magic.length bytes = (.ok tag, rest)) (hm : tag = magic) :
    bytes = magic ++ rest := by
  unfold Reader.bytes at h
  split at h
  · cases h
    rw [← congrArg (· ++ bytes.drop magic.length) hm]
    exact (List.take_append_drop _ _).symm
  · cases h

/-- Bytes begin with a prelude: behind the tag a count and as many entries, then the codes of the
arguments; `rest` is what comes after it. -/
inductive Announces : List UInt8 → List Entry → List Int → List UInt8 → Prop
  | intro {body body' body'' rest : List UInt8} {raw : List Entry} {codes : List Int} :
      Reader.length body = (.ok raw.length, body') →
      Step.Run Entry.read body' raw body'' →
      Entry.readCodes body'' = (.ok codes, rest) →
      Announces (magic ++ body) raw codes rest

/-- What reading a prelude does: it checks the entries and the codes, and rebuilds the types. -/
theorem readPrelude_eq_ok {bytes rest : List UInt8} {r : Table × List Ty}
    (h : readPrelude bytes = (.ok r, rest)) :
    ∃ raw codes, Announces bytes raw codes rest ∧
      ((∀ e ∈ raw, Entry.checkCodes raw.length e.members = .ok ()) ∧
        Entry.checkMethods raw.toArray = .ok ()) ∧
      Entry.checkCodes raw.length codes = .ok () ∧ rebuild raw.toArray codes = .ok r := by
  unfold readPrelude at h
  obtain ⟨tag, body, htag, h⟩ := Step.bind_eq_ok.mp h
  have htag' := Step.orFail_eq_ok.mp htag
  split at h
  · rename_i hm
    obtain ⟨count, body', hcount, h⟩ := Step.bind_eq_ok.mp h
    obtain ⟨raw, body'', hraw, h⟩ := Step.bind_eq_ok.mp h
    obtain ⟨hlength, hrun⟩ := Step.times_eq_ok.mp hraw
    obtain ⟨_, _, h₁, h⟩ := Step.bind_eq_ok.mp h
    obtain ⟨hentries, rfl⟩ := Step.ofExcept_eq_ok.mp h₁
    obtain ⟨_, _, h₂, h⟩ := Step.bind_eq_ok.mp h
    obtain ⟨hmethods, rfl⟩ := Step.ofExcept_eq_ok.mp h₂
    obtain ⟨codes, _, hcodes, h⟩ := Step.bind_eq_ok.mp h
    obtain ⟨_, _, h₃, h⟩ := Step.bind_eq_ok.mp h
    obtain ⟨hknown, rfl⟩ := Step.ofExcept_eq_ok.mp h₃
    obtain ⟨hbuilt, rfl⟩ := Step.ofExcept_eq_ok.mp h
    subst hlength
    rw [magic_append htag' hm]
    exact ⟨raw, codes, .intro hcount hrun hcodes, ⟨forM_eq_ok.mp hentries, hmethods⟩, hknown, hbuilt⟩
  · cases h

/-- What makes a table and argument types a faithful picture of entries and codes: one entry for
each, in order; names that all refer to entries by position, and no name bound that does not occur;
and the same infinite tree at every place. -/
structure Pictures (t : Table) (args : List Ty) (raw : List Entry) (codes : List Int) : Prop where
  length : t.entries.length = raw.length
  names : ∀ x ∈ t.occurring args,
    ∃ i : Nat, i < raw.length ∧ x = entryLabel i ∧ t.labelCode? x = some (i : Int)
  labels : ∀ x code, (x, code) ∈ t.labels ↔
    x ∈ t.occurring args ∧ ∃ i : Nat, i < raw.length ∧ x = entryLabel i ∧ code = i
  entries : ∀ (i : Nat) (c : Composite Ty), t.entries[i]? = some c →
    t.unfolding (.composite c) = unfold (Entry.former raw) i
  arguments : List.Forall₂ (fun type code => t.unfolding type = unfold (Entry.former raw) code)
    args codes

/-- A prelude that is accepted gives a faithful picture of what the bytes declare. -/
theorem readPrelude_faithful {bytes rest : List UInt8} {t : Table} {args : List Ty}
    (h : readPrelude bytes = (.ok (t, args), rest)) :
    ∃ raw codes, Announces bytes raw codes rest ∧ t.Pictures args raw codes := by
  obtain ⟨raw, codes, hannounces, _, _, hbuilt⟩ := readPrelude_eq_ok h
  obtain ⟨s, hs⟩ := rebuild_eq_ok hbuilt
  refine ⟨raw, codes, hannounces, hs.length_entries, ?_, ?_, ?_, ?_⟩
  · intro x hx
    obtain ⟨i, hi, rfl⟩ := hs.mem_occurring.mp hx
    exact ⟨i, hs.lt_of_named hi, rfl, hs.labelCode?_eq_some.mpr ⟨i, hi, rfl, rfl⟩⟩
  · intro x code
    rw [hs.mem_labels, hs.mem_occurring]
    constructor
    · rintro ⟨i, hi, rfl, rfl⟩
      exact ⟨⟨i, hi, rfl⟩, i, hs.lt_of_named hi, rfl, rfl⟩
    · rintro ⟨⟨i, hi, rfl⟩, j, _, hij, rfl⟩
      exact ⟨i, hi, rfl, by rw [entryLabel_inj hij]⟩
  · intro i c hc
    obtain ⟨n, hk⟩ := hs.known_of_entry hc
    exact hs.isBisimulation.unfold_eq (.copy hk)
  · exact hs.arguments.flip.imp fun _ _ hstands => hs.isBisimulation.unfold_eq hstands

/-- An entry that holds itself, once as an argument. -/
theorem readPrelude_faithful_recursive :
    ∃ raw codes, Announces [0x44, 0x49, 0x44, 0x4c, 1, 0x6e, 0, 1, 0] raw codes [] ∧
      Pictures ⟨[.opt (.named (entryLabel 0))], [(entryLabel 0, 0)]⟩
        [.composite (.opt (.named (entryLabel 0)))] raw codes :=
  readPrelude_faithful (by cbv)

theorem checkCodes_eq_ok {count : Nat} {codes : List Int} :
    Entry.checkCodes count codes = .ok () ↔ ∀ code ∈ codes, Entry.knownCode count code = true := by
  unfold Entry.checkCodes
  split
  · rename_i code hcode
    refine ⟨nofun, fun h => ?_⟩
    have hnot := List.find?_some hcode
    rw [h code (List.mem_of_find?_eq_some hcode)] at hnot
    cases hnot
  · rename_i hnone
    refine ⟨fun _ code hcode => ?_, fun _ => rfl⟩
    simpa using List.find?_eq_none.mp hnone code hcode

/-- Where every code stands for something, only the depth of the entries can keep them from being
rebuilt, and that only if there are more entries than levels. -/
theorem rebuild_eq_error {raw : List Entry} {codes : List Int} {e : Fault}
    (hraw : ∀ entry ∈ raw, ∀ code ∈ entry.members, Entry.knownCode raw.length code = true)
    (hcodes : ∀ code ∈ codes, Entry.knownCode raw.length code = true)
    (h : rebuild raw.toArray codes = .error e) : e = .tooDeep ∧ maxDepth < raw.length := by
  have hexpand : ∀ {i : Nat} {s : Rebuilt}, i < raw.length →
      Rebuilt.expand raw.toArray maxDepth [] i s = .error e → e = .tooDeep ∧ maxDepth < raw.length := by
    intro i s hi he
    have hdeep := Rebuilt.expand_tooDeep (fun j entry hentry => ?_) List.nodup_nil (by simp)
      (by simpa using hi) (by simp) he
    · simpa using hdeep
    · simpa using hraw entry (List.mem_of_getElem? (by simpa using hentry))
  unfold rebuild at h
  simp only [StateT.run, bind, StateT.bind, Except.bind] at h
  split at h
  · rename_i e' he
    cases h
    split at he
    · rename_i e'' hentries
      cases he
      obtain ⟨i, hi, s, hi'⟩ := exists_error_of_mapM hentries
      exact hexpand (by simpa using hi) (error_of_map hi')
    · split at he
      · rename_i e'' hargs
        cases he
        obtain ⟨code, hcode, s, hmember⟩ := exists_error_of_mapM hargs
        obtain ⟨i, _, hi, _, he⟩ :=
          Rebuilt.member_eq_error (hcodes code hcode) (error_of_map hmember)
        exact hexpand (by simpa using hi) he
      · cases he
  · cases h

end Table

end Didl
