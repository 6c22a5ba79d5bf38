import Didl.Proofs.Chains
import Didl.Proofs.Presenting
import Didl.Proofs.RoundTrip

namespace Didl.Message
open Value Table

/-- The limits that a reader holds a message to. -/
structure WithinLimits (env : Table) (types : List Ty) (values : List Value) : Prop where
  depth : ∀ v ∈ values, v.depth ≤ maxDepth
  entries : ∀ codes table, tableFor env types = .ok (codes, table) → table.size ≤ maxDepth
  zeroItems : ((types.zip values).map fun p => zeroItems env p.2 p.1).sum ≤ maxZeroSized
  numbers : ∀ v ∈ values, v.ShortNumbers

theorem forall₂_zip_map {α β γ : Type} {R : α → β → Prop} {f : β → γ} {as : List α} {bs : List β}
    (h : List.Forall₂ R as bs) :
    List.Forall₂ (fun (p : α × γ) b => p.2 = f b ∧ R p.1 b) (as.zip (bs.map f)) bs := by
  induction h with
  | nil => exact .nil
  | cons hr _ ih => exact .cons ⟨rfl, hr⟩ ih

section Encode
variable {env sub : Table} {types : List Ty} {values : List Value} {bytes : List UInt8}

theorem encode_eq_ok (h : encode env types values = .ok bytes) :
    types.length = values.length ∧ ∃ codes sub prelude out,
      tableFor env types = .ok (codes, sub) ∧ sub.preludeBytes codes = .ok prelude ∧
      writeAll sub (types.zip values) prelude.toArray = (.ok (), out) ∧ out.toList = bytes := by
  unfold encode at h
  simp only [bind, Except.bind] at h
  split at h
  · cases h
  · rename_i hlength
    refine ⟨Classical.not_not.mp hlength, ?_⟩
    split at h
    · cases h
    · rename_i r hsub
      obtain ⟨codes, sub⟩ := r
      dsimp only at h
      split at h
      · cases h
      · rename_i prelude hprelude
        split at h
        · cases h
        · split at h
          · rename_i out hwrite
            cases h
            exact ⟨codes, sub, prelude, out, hsub, hprelude, hwrite, rfl⟩
          · cases h

/-- What is written in sequence is the concatenation of what encodes the values. -/
theorem encodes_of_writeAll_unique {args : List (Ty × Value)} {out out' : Array UInt8}
    (hargs : ∀ p ∈ args, sub.UniqueIds p.1 ∧ p.2.Ordered)
    (h : writeAll sub args out = (.ok (), out')) :
    ∃ pieces : List (List UInt8), List.Forall₂ (fun p bs => Encodes sub p.2 p.1 bs) args pieces ∧
      out'.toList = out.toList ++ pieces.flatten := by
  induction args generalizing out with
  | nil =>
    cases h
    exact ⟨[], .nil, by simp⟩
  | cons p args ih =>
    obtain ⟨type, v⟩ := p
    obtain ⟨⟨⟩, out₁, hfirst, h⟩ := Step.bind_eq_ok.mp h
    obtain ⟨hids, hv⟩ := hargs (type, v) List.mem_cons_self
    obtain ⟨bs, hbs, hout₁⟩ := encodes_of_write hids hv hfirst
    obtain ⟨pieces, hpieces, hout'⟩ := ih (fun q hq => hargs q (List.mem_cons_of_mem _ hq)) h
    exact ⟨bs :: pieces, .cons hbs hpieces, by rw [hout', hout₁, List.flatten_cons, List.append_assoc]⟩

theorem encodes_of_writeAll {args : List (Ty × Value)} {out out' : Array UInt8}
    (hargs : ∀ p ∈ args, sub.Tidy p.1 ∧ p.2.Ordered)
    (h : writeAll sub args out = (.ok (), out')) :
    ∃ pieces : List (List UInt8), List.Forall₂ (fun p bs => Encodes sub p.2 p.1 bs) args pieces ∧
      out'.toList = out.toList ++ pieces.flatten :=
  encodes_of_writeAll_unique (fun p hp => ⟨(hargs p hp).1.legible.uniqueIds, (hargs p hp).2⟩) h

end Encode

/-- Arguments that are read one by one are read together, the allowance shared by all. -/
theorem yields_all {read : Ty → Decode Value} {table : Table} {types : List Ty}
    {args : List (Ty × Value)} {pieces : List (List UInt8)} {norm : Ty × Value → Value}
    {cost : Ty × Value → Nat} {fine deep : Prop}
    (hargs : List.Forall₂ (fun p bs => Yields (read p.1) bs (norm p) (cost p) fine deep) args pieces)
    (htypes : List.Forall₂ (fun type p => Value.read table (maxDepth + 1) type = read p.1) types args) :
    Yields (readAll table types) pieces.flatten (types.zip (args.map norm)) (args.map cost).sum
      fine deep := by
  induction hargs generalizing types with
  | nil =>
    cases htypes
    exact .pure _
  | cons hp _ ih =>
    cases htypes with
    | @cons type _ types _ heq htypes =>
      rw [← heq] at hp
      exact hp.andThen (k := fun v allowance => readAll table types allowance >>= fun q =>
        pure ((type, v) :: q.1, q.2)) ((ih htypes).map fun rest => (type, _) :: rest)

section Prelude
variable {env sub : Table} {types : List Ty} {codes : List Int} {entries : List Entry}

theorem preludeBytes_eq_ok {sub : Table} {codes : List Int} {prelude : List UInt8}
    (h : sub.preludeBytes codes = .ok prelude) :
    ∃ entries, sub.entries.mapM sub.toEntry = .ok entries ∧
      prelude = magic ++ Entry.listBytes Entry.bytes entries ++
        Entry.listBytes Varint.ofInt codes := by
  unfold preludeBytes at h
  cases hentries : sub.entries.mapM sub.toEntry with
  | error e =>
    rw [hentries] at h
    cases h
  | ok entries =>
    rw [hentries] at h
    cases h
    exact ⟨entries, rfl, rfl⟩

theorem presentable_of_tableFor (ht : ∀ type ∈ types, env.Tidy type)
    (hsub : tableFor env types = .ok (codes, sub))
    (hentries : sub.entries.mapM sub.toEntry = .ok entries) : Presentable entries codes := by
  obtain ⟨hcopies, hnames, hcodes⟩ := tableFor_eq_ok hsub
  apply presentable hcopies hnames (fun type htype => (ht type htype).legible) hentries
  intro code hcode
  obtain ⟨type, _, htype⟩ := exists_of_mem_right hcodes hcode
  exact ⟨type, htype⟩

/-- Only entries that are more than levels are refused when they are rebuilt. -/
theorem rebuild_presentable_error (h : Presentable entries codes) {e : Fault}
    (herror : rebuild (entries.map Entry.unnamed).toArray codes = .error e) :
    e = .tooDeep ∧ maxDepth < entries.length := by
  have hknown : ∀ e ∈ entries.map Entry.unnamed, ∀ code ∈ e.members,
      Entry.knownCode (entries.map Entry.unnamed).length code = true := by
    intro e' he'
    obtain ⟨e, he, rfl⟩ := List.mem_map.mp he'
    rw [Entry.members_unnamed, List.length_map]
    exact h.members e he
  have hcodes : ∀ code ∈ codes, Entry.knownCode (entries.map Entry.unnamed).length code = true := by
    rw [List.length_map]
    exact h.codes
  simpa using rebuild_eq_error hknown hcodes herror

/-- Types that are rebuilt from what was written are the same infinite trees as those that it was
written for, and are read alike. -/
theorem rebuild_presentable (hpresent : Presentable entries codes)
    (hsub : tableFor env types = .ok (codes, sub))
    (hentries : sub.entries.mapM sub.toEntry = .ok entries) {t : Table} {types' : List Ty}
    (h : rebuild (entries.map Entry.unnamed).toArray codes = .ok (t, types')) :
    List.Forall₂ (fun type' type => t.unfoldingById type' = env.unfoldingById type ∧
      ∀ limit, Value.read t limit type' = Value.read env limit type) types' types := by
  obtain ⟨hcopies, hnames, hcodes⟩ := tableFor_eq_ok hsub
  obtain ⟨s, hs⟩ := rebuild_eq_ok h
  -- The types that are read show what the codes show, and so do the types that were written.
  have hstands := hs.isBisimulation_canonical hpresent.ascends
  have hwritten := hstands.comp (isBisimulation_codeOf hcopies.sound hentries).flip
  have hcopied := hwritten.comp hcopies.isBisimulation.canonical.flip
  have hself : ∀ type ∈ types, type.same type = true ∧ ∀ x ∈ type.names, sub.isBound x = true :=
    fun type htype => ⟨Ty.same_refl type, hnames type htype⟩
  have hcomp := forall₂_comp hs.arguments.flip
    ((List.forall₂_and_left _ _).mpr ⟨hself, hcodes⟩).flip
  refine hcomp.imp fun type' type ⟨code, hcode, hsame, htype⟩ => ?_
  have hrel := (⟨type, ⟨code, hcode, htype⟩, hsame⟩ :
    ∃ u, (∃ code, s.Stands code type' ∧ sub.codeOf u = .ok code) ∧
      type.same u = true ∧ ∀ x ∈ type.names, sub.isBound x = true)
  exact ⟨hcopied.unfold_eq hrel, fun limit => read_alike hcopied hrel limit⟩

theorem rebuild_written_error (ht : ∀ type ∈ types, env.Tidy type)
    (hsub : tableFor env types = .ok (codes, sub))
    (hentries : sub.entries.mapM sub.toEntry = .ok entries) {e : Fault}
    (h : rebuild (entries.map Entry.unnamed).toArray codes = .error e) :
    e = .tooDeep ∧ maxDepth < sub.size := by
  have herror := rebuild_presentable_error (presentable_of_tableFor ht hsub hentries) h
  rwa [length_written hentries] at herror

theorem rebuild_written (ht : ∀ type ∈ types, env.Tidy type)
    (hsub : tableFor env types = .ok (codes, sub))
    (hentries : sub.entries.mapM sub.toEntry = .ok entries) {t : Table} {types' : List Ty}
    (h : rebuild (entries.map Entry.unnamed).toArray codes = .ok (t, types')) :
    List.Forall₂ (fun type' type => t.unfoldingById type' = env.unfoldingById type ∧
      ∀ limit, Value.read t limit type' = Value.read env limit type) types' types :=
  rebuild_presentable (presentable_of_tableFor ht hsub hentries) hsub hentries h

end Prelude

section RoundTrip
variable {env : Table} {types : List Ty} {values : List Value} {bytes : List UInt8}

theorem reader_of_prelude {t : Table} {types : List Ty} {prelude payload : List UInt8}
    (h : readPrelude (prelude ++ payload) = (.ok (t, types), payload)) :
    reader (prelude ++ payload) =
      (readAll t types maxZeroSized >>= fun p => pure (t, p.1)) payload :=
  Step.bind_ok h

/-- Types that are read alike fail alike. -/
theorem readAll_error_alike {env t : Table} {types types' : List Ty} {allowance : Nat}
    {bytes left : List UInt8} {e : Fault}
    (h : List.Forall₂ (fun type' type => ∀ limit, Value.read t limit type' = Value.read env limit type)
      types' types) (herror : readAll env types allowance bytes = (.error e, left)) :
    readAll t types' allowance bytes = (.error e, left) := by
  induction h generalizing allowance bytes with
  | nil => cases herror
  | cons heq _ ih =>
    rw [readAll, heq]
    rcases Step.bind_eq_error.mp herror with hfirst | ⟨p, bytes₁, hfirst, hrest⟩
    · exact Step.bind_error hfirst
    · refine (Step.bind_ok hfirst).trans ?_
      rcases Step.bind_eq_error.mp hrest with hrest | ⟨_, _, _, hdone⟩
      · exact Step.bind_error (ih hrest)
      · cases hdone

/-- The part of a decoded message that `encode` has a say in. -/
theorem decode_payload {t : Table} {types : List Ty} {prelude payload : List UInt8}
    {args : List (Ty × Value)} {cost : Nat} {fine deep : Prop}
    (hprelude : readPrelude (prelude ++ payload) = (.ok (t, types), payload))
    (h : Yields (readAll t types) payload args cost fine deep) :
    decodeWithTable (prelude ++ payload) = .ok (t, args) ∨
      ¬ (cost ≤ maxZeroSized ∧ fine) ∧ ∃ e, decodeWithTable (prelude ++ payload) = .error e ∧
        (IsLimit e ∨ e = .endOfInput ∧ deep) := by
  have hreader := reader_of_prelude hprelude
  have hall := h maxZeroSized [] (Nat.le_refl _)
  rw [List.append_nil] at hall
  rcases hall with ⟨_, hok⟩ | ⟨hnot, e, left, herror, he⟩
  · left
    rw [decodeWithTable, hreader, Step.bind_ok hok]
    rfl
  · refine .inr ⟨hnot, e, ?_, he⟩
    rw [decodeWithTable, hreader, Step.bind_error herror]

/-- What was written with the copies of the types in a table is given back with the types themselves. -/
theorem givesBack_of_copies {env sub : Table} {types : List Ty} {values : List Value}
    {pieces : List (List UInt8)} (hcopies : Copies env types sub)
    (hnames : ∀ type ∈ types, ∀ x ∈ type.names, sub.isBound x = true)
    (hpieces : List.Forall₂ (fun p bs => Encodes sub p.2 p.1 bs) (types.zip values) pieces)
    (hlt : pieces.flatten.length < 2 ^ 63) :
    List.Forall₂ (fun (p : Ty × Value) bs => GivesBack env (maxDepth + 1) p.2 p.1 bs)
      (types.zip values) pieces := by
  refine List.forall₂_iff_zip.mpr ⟨hpieces.length_eq, fun {p bs} hp => ?_⟩
  obtain ⟨hp₁, hp₂⟩ := List.of_mem_zip hp
  obtain ⟨htype, _⟩ := List.of_mem_zip hp₁
  have hle : bs.length ≤ pieces.flatten.length := (List.sublist_flatten_of_mem hp₂).length_le
  have hself : p.1.same p.1 = true ∧ ∀ x ∈ p.1.names, sub.isBound x = true :=
    ⟨Ty.same_refl p.1, hnames _ htype⟩
  have henv := hcopies.isBisimulation.canonical
  have hgives := givesBack_of_encodes hcopies.sound (List.forall₂_zip hpieces hp)
    (hcopies.closed (hnames _ htype)) (by omega) (Nat.le_refl _)
  rwa [GivesBack, ← normal_alike henv hself, ← zeroItems_alike henv hself,
    ← read_alike henv hself] at hgives

/-- A message within the limits, whose types are well-formed for a reader, is refused for nothing but
the depth of its table; otherwise its values are read in the form in which a reader holds them. -/
theorem decode_written {env sub : Table} {types : List Ty} {values : List Value} {codes : List Int}
    {entries : List Entry} {pieces : List (List UInt8)} {prelude : List UInt8}
    (hsub : tableFor env types = .ok (codes, sub))
    (hentries : sub.entries.mapM sub.toEntry = .ok entries) (hpresent : Presentable entries codes)
    (hprelude : prelude = magic ++ Entry.listBytes Entry.bytes entries ++
      Entry.listBytes Varint.ofInt codes)
    (hlength : types.length = values.length)
    (hpieces : List.Forall₂ (fun p bs => Encodes sub p.2 p.1 bs) (types.zip values) pieces)
    (hlt : (prelude ++ pieces.flatten).length < 2 ^ 63)
    (hvalues : ∀ v ∈ values, v.depth ≤ maxDepth ∧ v.ShortNumbers)
    (hzero : ((types.zip values).map fun p => zeroItems env p.2 p.1).sum ≤ maxZeroSized) :
    (decodeWithTable (prelude ++ pieces.flatten) = .error .tooDeep ∧ maxDepth < sub.size) ∨
      ∃ t types', rebuild (entries.map Entry.unnamed).toArray codes = .ok (t, types') ∧
        types'.length = types.length ∧ decodeWithTable (prelude ++ pieces.flatten) =
          .ok (t, types'.zip ((types.zip values).map fun p => normal env p.2 p.1)) := by
  obtain ⟨hcopies, hnames, _⟩ := tableFor_eq_ok hsub
  subst hprelude
  rw [List.length_append] at hlt
  have hread := readPrelude_append hpresent (by omega) pieces.flatten
  cases hrebuild : rebuild (entries.map Entry.unnamed).toArray codes with
  | error e =>
    rw [hrebuild] at hread
    obtain ⟨rfl, hmany⟩ := rebuild_presentable_error hpresent hrebuild
    rw [length_written hentries] at hmany
    exact .inl ⟨by rw [decodeWithTable, reader, Step.bind_error hread], hmany⟩
  | ok r =>
    obtain ⟨t, types'⟩ := r
    rw [hrebuild] at hread
    have hrebuilt := rebuild_presentable hpresent hsub hentries hrebuild
    have halike : List.Forall₂ (fun (type' : Ty) (p : Ty × Value) =>
        ∀ limit, Value.read t limit type' = Value.read env limit p.1) types' (types.zip values) := by
      have hfst : (types.zip values).map Prod.fst = types := List.map_fst_zip (Nat.le_of_eq hlength)
      rw [← hfst] at hrebuilt
      exact (List.forall₂_map_right_iff.mp hrebuilt).imp fun _ _ h => h.2
    have hyields : List.Forall₂ (fun (p : Ty × Value) bs =>
        Yields (Value.read env (maxDepth + 1) p.1) bs (normal env p.2 p.1) (zeroItems env p.2 p.1)
          True False) (types.zip values) pieces := by
      have hgives := givesBack_of_copies hcopies hnames hpieces (by omega)
      refine List.forall₂_iff_zip.mpr ⟨hpieces.length_eq, fun {p bs} hp => ?_⟩
      obtain ⟨hdepth, hnumbers⟩ := hvalues p.2 (List.of_mem_zip (List.of_mem_zip hp).1).2
      exact (List.forall₂_zip hgives hp).weaken (fun _ => ⟨Nat.lt_succ_of_le hdepth, hnumbers⟩)
        fun h => absurd h (Nat.not_lt.mpr hdepth)
    have hall := yields_all hyields (halike.imp fun _ _ h => h _)
    rcases decode_payload hread hall with hok | ⟨hnot, _⟩
    · exact .inr ⟨t, types', rfl, hrebuilt.length_eq, hok⟩
    · exact absurd ⟨hzero, trivial⟩ hnot

def listTable : Table :=
  ⟨[.record [⟨0, none, .blob⟩, ⟨1, none, .composite (.opt (.named "list"))⟩]], [("list", 0)]⟩

theorem listTable_tidy : listTable.Tidy (.named "list") := by
  refine Tidy.of_invariant (P := fun u => u = .named "list" ∨ u = .blob ∨ u = .prim .nat8 ∨
    u = .composite (.opt (.named "list"))) ?_ ?_ (.inl rfl)
  · rintro _ f (rfl | rfl | rfl | rfl) hf
    · cases hf
      refine ⟨(by decide : ([0, 1] : List UInt32).Nodup), fun v hv => ?_⟩
      rcases List.mem_cons.mp hv with rfl | hv
      · exact .inr (.inl rfl)
      · exact .inr (.inr (.inr (List.mem_singleton.mp hv)))
    · cases hf
      exact ⟨trivial, fun v hv => .inr (.inr (.inl (List.mem_singleton.mp hv)))⟩
    · cases hf
      exact ⟨trivial, nofun⟩
    · cases hf
      exact ⟨trivial, fun v hv => .inl (List.mem_singleton.mp hv)⟩
  · rintro _ ms (rfl | rfl | rfl | rfl) hf <;> cases hf

/-- What is encoded is decoded to values in the form in which a reader holds them and to types of
the same infinite trees, or it is refused for a limit; for want of input it is refused only if a
value nests deeper than a reader looks. Nothing within the limits is refused. -/
theorem decode_encode (ht : ∀ type ∈ types, env.Tidy type) (hv : ∀ v ∈ values, v.Ordered)
    (h : encode env types values = .ok bytes) (hlt : bytes.length < 2 ^ 63) :
    ((∃ table args, decodeWithTable bytes = .ok (table, args) ∧ args.length = types.length ∧
        List.Forall₂ (fun (arg p : Ty × Value) => arg.2 = normal env p.2 p.1 ∧
          table.unfoldingById arg.1 = env.unfoldingById p.1) args (types.zip values)) ∨
      ∃ e, decodeWithTable bytes = .error e ∧
        (IsLimit e ∨ e = .endOfInput ∧ ∃ v ∈ values, maxDepth < v.depth)) ∧
    (WithinLimits env types values → ∃ message, decodeWithTable bytes = .ok message) := by
  obtain ⟨hlength, codes, sub, prelude, out, hsub, hprelude, hwrite, rfl⟩ := encode_eq_ok h
  obtain ⟨hcopies, hnames, _⟩ := tableFor_eq_ok hsub
  obtain ⟨entries, hentries, rfl⟩ := preludeBytes_eq_ok hprelude
  have hmem : ∀ p ∈ types.zip values, p.1 ∈ types ∧ p.2 ∈ values := fun p hp => List.of_mem_zip hp
  obtain ⟨pieces, hpieces, hout⟩ := encodes_of_writeAll (fun p hp =>
    ⟨hcopies.tidy (hnames _ (hmem p hp).1) (ht _ (hmem p hp).1), hv _ (hmem p hp).2⟩) hwrite
  dsimp only at hout
  rw [hout, List.length_append] at hlt
  rw [hout]
  have hread := readPrelude_append (presentable_of_tableFor ht hsub hentries) (by omega) pieces.flatten
  cases hrebuild : rebuild (entries.map Entry.unnamed).toArray codes with
  | error e =>
    rw [hrebuild] at hread
    have hdecode : decodeWithTable (magic ++ Entry.listBytes Entry.bytes entries ++
        Entry.listBytes Varint.ofInt codes ++ pieces.flatten) = .error e := by
      rw [decodeWithTable, reader, Step.bind_error hread]
    obtain ⟨rfl, hmany⟩ := rebuild_written_error ht hsub hentries hrebuild
    refine ⟨.inr ⟨_, hdecode, .inl (.inl rfl)⟩, fun hlimits => ?_⟩
    exact absurd (hlimits.entries codes sub hsub) (Nat.not_le.mpr hmany)
  | ok r =>
    obtain ⟨t, types'⟩ := r
    rw [hrebuild] at hread
    have hsame : List.Forall₂ (fun (type' : Ty) (p : Ty × Value) =>
        t.unfoldingById type' = env.unfoldingById p.1 ∧
          ∀ limit, Value.read t limit type' = Value.read env limit p.1) types' (types.zip values) := by
      have hfst : (types.zip values).map Prod.fst = types := List.map_fst_zip (Nat.le_of_eq hlength)
      have hrebuilt := rebuild_written ht hsub hentries hrebuild
      rw [← hfst] at hrebuilt
      exact List.forall₂_map_right_iff.mp hrebuilt
    have hyields : List.Forall₂ (fun (p : Ty × Value) bs =>
        Yields (Value.read env (maxDepth + 1) p.1) bs (normal env p.2 p.1) (zeroItems env p.2 p.1)
          (∀ v ∈ values, v.depth < maxDepth + 1 ∧ v.ShortNumbers)
          (∃ v ∈ values, maxDepth < v.depth)) (types.zip values) pieces := by
      have hgives := givesBack_of_copies hcopies hnames hpieces (by omega)
      refine List.forall₂_iff_zip.mpr ⟨hpieces.length_eq, fun {p bs} hp => ?_⟩
      have hvalue := (hmem p (List.of_mem_zip hp).1).2
      exact (List.forall₂_zip hgives hp).weaken (fun h => h _ hvalue) fun h => ⟨_, hvalue, h⟩
    have hall := yields_all hyields (hsame.imp fun _ _ h => h.2 _)
    rcases decode_payload hread hall with hok | ⟨hnot, e, herror, he⟩
    · refine ⟨.inl ⟨t, _, hok, ?_, ?_⟩, fun _ => ⟨_, hok⟩⟩
      · rw [List.length_zip, List.length_map, hsame.length_eq, Nat.min_self, List.length_zip, hlength,
          Nat.min_self]
      · exact (forall₂_zip_map hsame).imp fun _ _ h => ⟨h.1, h.2.1⟩
    · refine ⟨.inr ⟨e, herror, he⟩, fun hlimits => absurd ⟨hlimits.zeroItems, fun v hv => ?_⟩ hnot⟩
      exact ⟨Nat.lt_succ_of_le (hlimits.depth v hv), hlimits.numbers v hv⟩

/-- One element of such a list, its bytes written one by one. -/
theorem decode_encode_list :
    ∃ bytes table args,
      encode listTable [.named "list"] [.record [(0, .vec [.nat8 7]), (1, .opt none)]] = .ok bytes ∧
      decodeWithTable bytes = .ok (table, args) ∧ args.length = 1 ∧
      List.Forall₂ (fun (arg p : Ty × Value) => arg.2 = normal listTable p.2 p.1 ∧
        table.unfoldingById arg.1 = listTable.unfoldingById p.1) args
        [(.named "list", .record [(0, .vec [.nat8 7]), (1, .opt none)])] ∧
      normal listTable (.record [(0, .vec [.nat8 7]), (1, .opt none)]) (.named "list") =
        .record [(0, .blob [7]), (1, .opt none)] := by
  have hordered : Ordered (.record [(0, .vec [.nat8 7]), (1, .opt none)]) := by
    have hbyte : Ordered (.nat8 7) := .of_leaf rfl (by simp)
    have hnone : Ordered (.opt none) := .of_leaf rfl (by simp)
    have hbytes : Ordered (.vec [.nat8 7]) := .of_children (by simpa [children] using hbyte) (by simp)
    refine .of_children (by simpa [children] using ⟨hbytes, hnone⟩) fun fields hf => ?_
    cases hf
    decide
  have hnumbers : ShortNumbers (.record [(0, .vec [.nat8 7]), (1, .opt none)]) := by
    have hbyte : ShortNumbers (.nat8 7) := .of_leaf rfl (by simp) (by simp)
    have hnone : ShortNumbers (.opt none) := .of_leaf rfl (by simp) (by simp)
    have hbytes : ShortNumbers (.vec [.nat8 7]) :=
      .of_children (by simpa [children] using hbyte) (by simp) (by simp)
    exact .of_children (by simpa [children] using ⟨hbytes, hnone⟩) (by simp) (by simp)
  have hencode : encode listTable [.named "list"] [.record [(0, .vec [.nat8 7]), (1, .opt none)]] =
      .ok [68, 73, 68, 76, 3, 108, 2, 0, 1, 1, 2, 109, 123, 110, 0, 1, 0, 1, 7, 0] := by cbv
  obtain ⟨hround, hlimits⟩ := decode_encode
    (fun type h => by rw [List.mem_singleton.mp h]; exact listTable_tidy)
    (fun v h => by rw [List.mem_singleton.mp h]; exact hordered) hencode (by decide)
  obtain ⟨message, hmessage⟩ := hlimits
    { depth := by
        intro v hv
        rw [List.mem_singleton.mp hv, show depth _ = 2 by cbv]
        decide
      entries := by
        intro codes table h
        have hsize : (tableFor listTable [.named "list"]).map (fun r => r.2.size) = .ok 3 := by cbv
        rw [h] at hsize
        rw [show table.size = 3 from Except.ok.inj hsize]
        decide
      zeroItems := by
        rw [show (List.map _ _).sum = 0 by cbv]
        decide
      numbers := fun v hv => by rw [List.mem_singleton.mp hv]; exact hnumbers }
  rcases hround with ⟨table, args, hdecode, hlength, hargs⟩ | ⟨e, herror, _⟩
  · exact ⟨_, table, args, hencode, hdecode, hlength, hargs, by cbv⟩
  · rw [hmessage] at herror
    cases herror

/-- A value of more levels than a reader looks, which takes no bytes: what encodes it is well-formed
and the table is rebuilt, but the reader asks for input that there is no need of. -/
theorem decode_encode_deep :
    ∃ bytes, encode {} ((spireArgs maxDepth).map Prod.fst) ((spireArgs maxDepth).map Prod.snd) =
        .ok bytes ∧ bytes.length < 2 ^ 63 ∧
      (∀ type ∈ (spireArgs maxDepth).map Prod.fst, ({} : Table).Tidy type) ∧
      (∀ v ∈ (spireArgs maxDepth).map Prod.snd, v.Ordered) ∧
      decodeWithTable bytes = .error .endOfInput := by
  have hlt := length_spirePrelude (show maxDepth < 2 ^ 32 by decide)
  refine ⟨_, encode_spire maxDepth, hlt, fun _ => tidy_spireArgs, fun _ => ordered_spireArgs, ?_⟩
  have hsub := tableFor_spire maxDepth
  have hentries := mapM_spire maxDepth
  have hpresent := presentable_of_tableFor (fun _ => tidy_spireArgs) hsub hentries
  obtain ⟨⟨t, types'⟩, hrebuild⟩ : ∃ r, rebuild ((spireEntries maxDepth).map Entry.unnamed).toArray
      ((List.range (maxDepth + 1)).map Nat.cast) = .ok r := by
    rw [unnamed_spireEntries]
    refine rebuild_returns (fun i hi => ?_) hpresent.codes
    exact shallow_spire 510 (by rwa [List.size_toArray, length_spireEntries] at hi)
  rw [List.length_append] at hlt
  have hread := readPrelude_append hpresent (show (spirePrelude maxDepth).length < _ by omega) [1]
  rw [hrebuild] at hread
  have halike := (rebuild_written (fun _ => tidy_spireArgs) hsub hentries hrebuild).imp
    fun _ _ h => h.2
  have hall := readAll_error_alike halike (readAll_spire {} maxZeroSized)
  rw [decodeWithTable, spirePrelude, reader_of_prelude hread, Step.bind_error hall]

end RoundTrip

end Didl.Message
