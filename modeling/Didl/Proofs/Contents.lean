import Didl.Proofs.Environments
import Didl.Proofs.Measuring
import Didl.Proofs.Rewriting
import Didl.Proofs.Sharing

namespace Didl

def Writer.Appends (w : Writer) : Prop := ∀ out, out.toList <+: (w out).2.toList

namespace Writer.Appends

theorem still {w : Writer} (h : ∀ out, (w out).2 = out) : Appends w := fun out => by rw [h out]

theorem bind {w : Writer} {f : Unit → Writer} (hw : Appends w) (hf : ∀ a, Appends (f a)) :
    Appends (w >>= f) := by
  intro out
  have hfirst := hw out
  rw [Step.bind_apply]
  rcases hrun : w out with ⟨_ | a, out₁⟩
  · rwa [hrun] at hfirst
  · rw [hrun] at hfirst
    exact hfirst.trans (hf a out₁)

end Writer.Appends

/-- Writing a value takes nothing back. -/
theorem Value.write_appends (t : Table) (v : Value) (type : Ty) : (v.write t type).Appends := by
  obtain ⟨_, bytes, hwrite, _⟩ := v.write_measured t type
  intro out
  rw [hwrite out]
  simp

/-- The codes that a code leads to among entries: through the entry that it stands for to the codes
of the members, and on from there. -/
inductive Entry.Leads (raw : List Entry) (code : Int) : Int → Prop
  | refl : Leads raw code code
  | member {c d : Int} {f : Former Int} :
      Leads raw code c → Entry.former raw c = some f → d ∈ f.members → Leads raw code d

namespace Table
variable {env t : Table} {types registered : List Ty} {entries : List Entry} {type : Ty} {code : Int}

theorem Former.mem_members_canonical {f : Former Ty} {m : Ty} :
    m ∈ f.canonical.members ↔ m ∈ f.members := by
  cases f with
  | prim p => exact Iff.rfl
  | composite c => exact Composite.mem_members_canonical

/-- What a type leads to is met by its code. -/
theorem Reach.coded (hc : Copies env types t) (h : t.entries.mapM t.toEntry = .ok entries)
    (htype : t.Coded type code) {u : Ty} (hu : env.Reach type u) :
    ∃ c, Entry.Leads (entries.map Entry.unnamed) code c ∧ t.Coded u c := by
  induction hu with
  | refl => exact ⟨code, .refl, htype⟩
  | member _ hf hm ih =>
    obtain ⟨c, hleads, hu⟩ := ih
    obtain ⟨f, g, hf', hg, hfg⟩ := isBisimulation_coded hc h _ c hu
    rw [canonicalFormer, hf] at hf'
    cases hf'
    obtain ⟨d, hd, hcoded⟩ := exists_of_mem_right (Former.rel_iff.mp hfg).2.flip
      (Former.mem_members_canonical.mpr hm)
    exact ⟨d, .member hleads hg hd, hcoded⟩

/-- What a code leads to is met by the type. -/
theorem Leads.reached (hc : Copies env types t) (h : t.entries.mapM t.toEntry = .ok entries)
    (htype : t.Coded type code) {c : Int} (hleads : Entry.Leads (entries.map Entry.unnamed) code c) :
    ∃ u, env.Reach type u ∧ t.Coded u c := by
  induction hleads with
  | refl => exact ⟨type, .refl, htype⟩
  | @member c d g' _ hg hd ih =>
    obtain ⟨u, hu, hcoded⟩ := ih
    obtain ⟨f, g, hf, hg', hfg⟩ := isBisimulation_coded hc h u c hcoded
    rw [hg] at hg'
    cases hg'
    obtain ⟨f₁, hf₁, rfl⟩ := Option.map_eq_some_iff.mp hf
    obtain ⟨m, hm, hmember⟩ := exists_of_mem_right (Former.rel_iff.mp hfg).2 hd
    exact ⟨m, .member hu hf₁ (Former.mem_members_canonical.mp hm), hmember⟩

/-- A type that shows what an entry lists is written by this entry. -/
theorem Coded.index (hc : Copies env types t) (he : t.Exact registered)
    (h : t.entries.mapM t.toEntry = .ok entries) {u : Ty} {c : Int} (hu : t.Coded u c) {i : Nat}
    {e : Composite Ty} (hi : t.entries[i]? = some e) (hf : env.former u = some (.composite e)) :
    c = (i : Int) := by
  obtain ⟨f, g, hf', hg, hfg⟩ := isBisimulation_coded hc h u c hu
  rw [canonicalFormer, hf] at hf'
  cases hf'
  cases hfg with
  | composite =>
    by_cases hneg : c < 0
    · simp [Entry.former, hneg] at hg
    · obtain ⟨k, rfl⟩ := Int.eq_ofNat_of_zero_le (Int.not_lt.mp hneg)
      obtain ⟨c', d, hc', hd, hsame⟩ := Coded.former hc hu
      rw [hf] at hc'
      cases hc'
      rw [he.index_inj hi hd hsame]

/-- The entries of a message and the codes of its arguments against the types that it was written
for: an entry that no argument leads to is not there, what an argument leads to is there, and the
two sides of an argument lead to the same infinite trees. -/
structure Carries (env : Table) (types : List Ty) (raw : List Entry) (codes : List Int) : Prop where
  needed : ∀ i < raw.length, ∃ code ∈ codes, Entry.Leads raw code (i : Int)
  present : ∀ code ∈ codes, ∀ c, Entry.Leads raw code c → Entry.knownCode raw.length c = true
  arguments : List.Forall₂ (fun type code =>
    (∀ u, env.Reach type u → ∃ c, Entry.Leads raw code c ∧
      env.unfoldingById u = unfold (Entry.former raw) c) ∧
    ∀ c, Entry.Leads raw code c → ∃ u, env.Reach type u ∧
      env.unfoldingById u = unfold (Entry.former raw) c) types codes

/-- Types and their codes in a table that holds what the types need. -/
theorem Copies.carries {codes : List Int} (hc : Copies env types t) (he : t.Exact registered)
    (h : t.entries.mapM t.toEntry = .ok entries)
    (hcodes : List.Forall₂ t.Coded types codes) :
    Carries env types (entries.map Entry.unnamed) codes := by
  have hlength : (entries.map Entry.unnamed).length = t.entries.length := by
    rw [List.length_map, length_written h]
  constructor
  case needed =>
    intro i hi
    rw [hlength] at hi
    have hentry := List.getElem?_eq_getElem hi
    obtain ⟨type, htype, u, hu, hf⟩ := hc.entries _ (List.getElem_mem hi)
    obtain ⟨code, hcode, hcoded⟩ := exists_of_mem_right hcodes.flip htype
    obtain ⟨c, hleads, hcu⟩ := hu.coded hc h hcoded
    rw [hcu.index hc he h hentry hf] at hleads
    exact ⟨code, hcode, hleads⟩
  case present =>
    intro code hcode c hleads
    obtain ⟨type, _, hcoded⟩ := exists_of_mem_right hcodes hcode
    obtain ⟨u, _, hu⟩ := Leads.reached hc h hcoded hleads
    rw [hlength]
    exact knownCode_of_codeOf hc.sound hu.1
  case arguments =>
    have htrees := isBisimulation_coded hc h
    refine hcodes.imp fun type code hcoded => ⟨fun u hu => ?_, fun c hleads => ?_⟩
    · obtain ⟨c, hleads, hcu⟩ := hu.coded hc h hcoded
      exact ⟨c, hleads, htrees.unfold_eq hcu⟩
    · obtain ⟨u, hu, hcu⟩ := Leads.reached hc h hcoded hleads
      exact ⟨u, hu, htrees.unfold_eq hcu⟩

end Table

namespace Message
open Table
variable {env sub : Table} {types : List Ty} {values : List Value} {codes : List Int}
  {bytes : List UInt8}

theorem writeAll_appends (t : Table) (args : List (Ty × Value)) : (writeAll t args).Appends := by
  induction args with
  | nil => exact .still fun _ => rfl
  | cons p args ih => exact (Value.write_appends t p.2 p.1).bind fun _ => ih

/-- The names that some types depend on are bound alike in a table that binds them to the same
types. -/
theorem agreesOn_of_tableFor (h : tableFor env types = .ok (codes, sub)) {env' : Table}
    (hsame : ∀ type ∈ types, ∀ x, env.Reach type (.named x) → env'.resolve x = env.resolve x) :
    AgreesOn (fun x => ∃ type ∈ types, env.Reach type (.named x)) env env' := by
  obtain ⟨hcopies, hnames, _⟩ := tableFor_eq_ok h
  rintro x ⟨type, htype, hx⟩
  obtain ⟨v, _, hv, hbound⟩ :=
    Reach.along hcopies.isBisimulation ⟨Ty.same_refl type, hnames type htype⟩ hx
  obtain ⟨head, _, hhead, _, _, _⟩ := hcopies.heads x (hbound x (List.mem_singleton_self x))
  refine ⟨head, head, hhead, ?_, Ty.same_refl _, fun y hy => ⟨type, htype, ?_⟩⟩
  · rw [hsame type htype x hx, hhead]
  · exact hx.trans ((reach_of_resolve hhead).1 y hy)

/-- The prelude of a message is minimal. Its entries are those that its arguments lead to, none of
them is missing, and a reader finds just these if the types are legible. Any table that binds the
names on which the arguments depend to the same types gives the same message, whatever else it
binds. -/
theorem encode_carries (h : encode env types values = .ok bytes) :
    (∃ raw codes payload, bytes = magic ++ Entry.listBytes Entry.bytes raw ++
        Entry.listBytes Varint.ofInt codes ++ payload ∧ Carries env types raw codes ∧
      ((∀ type ∈ types, env.Legible type) → bytes.length < 2 ^ 63 →
        Announces bytes raw codes payload)) ∧
    ∀ env' : Table,
      (∀ type ∈ types, ∀ x, env.Reach type (.named x) → env'.resolve x = env.resolve x) →
      encode env' types values = .ok bytes := by
  obtain ⟨_, codes, sub, prelude, out, hsub, hprelude, hwrite, hout⟩ := encode_eq_ok h
  obtain ⟨hcopies, hnames, hcodes⟩ := tableFor_eq_ok hsub
  obtain ⟨registered, hexact, _⟩ := tableFor_listed hsub
  obtain ⟨entries, hentries, rfl⟩ := preludeBytes_eq_ok hprelude
  constructor
  · have hcoded : List.Forall₂ sub.Coded types codes :=
      ((List.forall₂_and_left _ _).mpr ⟨hnames, hcodes⟩).imp fun _ _ h => ⟨h.2, h.1⟩
    obtain ⟨payload, hpayload⟩ := writeAll_appends sub (types.zip values)
      (magic ++ Entry.listBytes Entry.bytes entries ++ Entry.listBytes Varint.ofInt codes).toArray
    rw [hwrite] at hpayload
    have hbytes : bytes = magic ++ Entry.listBytes Entry.bytes entries ++
        Entry.listBytes Varint.ofInt codes ++ payload := by rw [← hout, ← hpayload]
    refine ⟨entries.map Entry.unnamed, codes, payload, ?_, hcopies.carries hexact hentries hcoded,
      fun hlegible hlt => ?_⟩
    · rw [Entry.listBytes_unnamed, hbytes]
    · have hpresent := presentable hcopies hnames hlegible hentries fun code hcode => by
        obtain ⟨type, _, htype⟩ := exists_of_mem_right hcodes hcode
        exact ⟨type, htype⟩
      rw [hbytes] at hlt ⊢
      exact announces_append hpresent (by rw [List.length_append] at hlt; omega) payload
  · intro env' hsame
    have hself : ∀ type ∈ types, ∀ x ∈ type.names,
        ∃ type ∈ types, env.Reach type (.named x) :=
      fun type htype x hx => ⟨type, htype, reach_of_names hx⟩
    have hconcur := encode_concur (agreesOn_of_tableFor hsub hsame) hself values
    rw [h] at hconcur
    generalize encode env' types values = r at hconcur
    cases hconcur with
    | ok heq => rw [heq]

def crowdedTable : Table :=
  ⟨[.vec (.prim .text), .record [⟨0, none, .blob⟩, ⟨1, none, .composite (.opt (.named "list"))⟩],
    .opt (.named "spare")], [("spare", 0), ("other", 2), ("list", 1), ("alias", 1)]⟩

theorem crowdedTable_reach {u : Ty} (h : crowdedTable.Reach (.named "list") u) :
    u = .named "list" ∨ u = .blob ∨ u = .prim .nat8 ∨ u = .composite (.opt (.named "list")) := by
  refine Reach.invariant (P := fun u => u = .named "list" ∨ u = .blob ∨ u = .prim .nat8 ∨
    u = .composite (.opt (.named "list"))) ?_ (.inl rfl) h
  rintro _ f (rfl | rfl | rfl | rfl) hf v hv
  · cases hf
    rcases List.mem_cons.mp hv with rfl | hv
    · exact .inr (.inl rfl)
    · exact .inr (.inr (.inr (List.mem_singleton.mp hv)))
  · cases hf
    exact .inr (.inr (.inl (List.mem_singleton.mp hv)))
  · cases hf
    cases hv
  · cases hf
    exact .inl (List.mem_singleton.mp hv)

theorem encode_carries_list :
    encode crowdedTable [.named "list"] [.record [(0, .vec [.nat8 7]), (1, .opt none)]] =
      .ok [68, 73, 68, 76, 3, 108, 2, 0, 1, 1, 2, 109, 123, 110, 0, 1, 0, 1, 7, 0] ∧
    (∃ raw codes payload,
      Announces [68, 73, 68, 76, 3, 108, 2, 0, 1, 1, 2, 109, 123, 110, 0, 1, 0, 1, 7, 0] raw codes
        payload ∧ Carries crowdedTable [.named "list"] raw codes) ∧
    (∀ type ∈ [Ty.named "list"], ∀ x, crowdedTable.Reach type (.named x) →
      listTable.resolve x = crowdedTable.resolve x) ∧
    encode listTable [.named "list"] [.record [(0, .vec [.nat8 7]), (1, .opt none)]] =
      .ok [68, 73, 68, 76, 3, 108, 2, 0, 1, 1, 2, 109, 123, 110, 0, 1, 0, 1, 7, 0] := by
  have hencode : encode crowdedTable [.named "list"] [.record [(0, .vec [.nat8 7]), (1, .opt none)]] =
      .ok [68, 73, 68, 76, 3, 108, 2, 0, 1, 1, 2, 109, 123, 110, 0, 1, 0, 1, 7, 0] := by cbv
  have hlegible : ∀ type ∈ [Ty.named "list"], crowdedTable.Legible type := by
    intro type htype
    obtain rfl := List.mem_singleton.mp htype
    constructor
    · intro u f hu hf
      rcases crowdedTable_reach hu with rfl | rfl | rfl | rfl <;> cases hf
      · exact (by decide : ([0, 1] : List UInt32).Nodup)
      all_goals exact trivial
    · intro u ms hu hf
      rcases crowdedTable_reach hu with rfl | rfl | rfl | rfl <;> cases hf
  have hsame : ∀ type ∈ [Ty.named "list"], ∀ x, crowdedTable.Reach type (.named x) →
      listTable.resolve x = crowdedTable.resolve x := by
    intro type htype x hx
    rw [List.mem_singleton.mp htype] at hx
    rcases crowdedTable_reach hx with heq | heq | heq | heq <;> cases heq
    rfl
  obtain ⟨⟨raw, codes, payload, _, hcarries, hread⟩, hrest⟩ := encode_carries hencode
  exact ⟨hencode, ⟨raw, codes, payload, hread hlegible (by decide), hcarries⟩, hsame,
    hrest listTable hsame⟩

end Message

end Didl
