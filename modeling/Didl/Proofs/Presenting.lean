import Didl.Proofs.Copying
import Didl.Proofs.Encoding

namespace Didl

theorem Composite.canonical_of_ascends {α : Type} {c : Composite α} (h : c.shape.Ascends) :
    c.canonical = c := by
  cases c with
  | record fs =>
    exact congrArg record (sortBy_of_pairwise ((List.pairwise_map.mp h).imp Std.le_of_lt))
  | variant fs =>
    exact congrArg variant (sortBy_of_pairwise ((List.pairwise_map.mp h).imp Std.le_of_lt))
  | service ms =>
    exact congrArg service (sortBy_of_pairwise ((List.pairwise_map.mp h).imp Std.le_of_lt))
  | opt | vec | func | future => rfl

theorem Former.callable_canonical {α : Type} {f : Former α} (h : f.shape.Callable) :
    f.canonical.shape.Callable := by
  cases f with
  | prim p => exact h
  | composite c => cases c <;> exact h

namespace Table

section Copies
variable {env t : Table} {types : List Ty}

/-- Types whose names are all bound show the same in a table and in its copy. -/
theorem Copies.isBisimulation (h : Copies env types t) :
    IsBisimulation env.former t.former fun u v =>
      u.same v = true ∧ ∀ x ∈ u.names, t.isBound x = true := by
  have hheads : ∀ {head head' : Head}, head.type.same head'.type = true →
      (∀ x ∈ head.type.names, t.isBound x = true) →
      head.former.Rel (fun u v => u.same v = true ∧ ∀ x ∈ u.names, t.isBound x = true)
        head'.former := by
    intro head head' hsame hnames
    cases head with
    | prim p =>
      cases head' with
      | composite d => simp [Head.type, Ty.same] at hsame
      | prim q =>
        obtain rfl : p = q := by simpa [Head.type, Ty.same] using hsame
        exact .prim p
    | composite c =>
      cases head' with
      | prim q => simp [Head.type, Ty.same] at hsame
      | composite d =>
        have hbound : ∀ m ∈ c.members, ∀ x ∈ m.names, t.isBound x = true := by
          intro m hm x hx
          apply hnames x
          rw [Head.type, Ty.names_composite]
          exact List.mem_flatMap.mpr ⟨m, hm, hx⟩
        have hrel := (Ty.same_composite.mp hsame).and_left hbound
        exact .composite (hrel.imp fun _ _ hr => ⟨hr.2, hr.1⟩)
  rintro u v ⟨hsame, hnames⟩
  cases u with
  | named x =>
    obtain rfl : v = .named x := by
      cases v <;> simp_all [Ty.same]
    obtain ⟨head, head', hhead, hhead', hsame', hy⟩ := h.heads x (hnames x (by simp [Ty.names, Ty.fold]))
    exact ⟨_, _, former_eq_some.mpr ⟨head, hhead, rfl⟩, former_eq_some.mpr ⟨head', hhead', rfl⟩,
      hheads hsame' hy⟩
  | prim p =>
    cases v with
    | prim q => exact ⟨_, _, rfl, rfl, @hheads (.prim p) (.prim q) hsame hnames⟩
    | named y => simp [Ty.same] at hsame
    | composite d => simp [Ty.same] at hsame
  | composite c =>
    cases v with
    | prim q => simp [Ty.same] at hsame
    | named y => simp [Ty.same] at hsame
    | composite d =>
      exact ⟨_, _, rfl, rfl, @hheads (.composite c) (.composite d) hsame hnames⟩

end Copies

section Entries
variable {t : Table} {entries : List Entry}

/-- The entries of a table as they are written. -/
theorem entry_of_written (h : t.entries.mapM t.toEntry = .ok entries) {i : Nat} {c : Composite Ty}
    (hc : t.entries[i]? = some c) : ∃ e, entries[i]? = some e ∧
      c.canonical.Rel (fun type code => t.codeOf type = .ok code) e := by
  have hall := except_mapM_eq_ok.mp h
  obtain ⟨hi, rfl⟩ := List.getElem?_eq_some_iff.mp hc
  have hi' : i < entries.length := hall.length_eq ▸ hi
  obtain ⟨bs, hbs, he⟩ := Composite.except_mapM_eq_ok.mp ((List.forall₂_iff_get.mp hall).2 i hi hi')
  refine ⟨entries[i], List.getElem?_eq_getElem hi', ?_⟩
  have hrel := Composite.refill_rel hbs
  rw [← he] at hrel
  exact hrel

/-- A type shows in a table what its code shows in the graph of the entries as they are read. -/
theorem isBisimulation_codeOf (hs : t.Sound) (h : t.entries.mapM t.toEntry = .ok entries) :
    IsBisimulation t.canonicalFormer (Entry.former (entries.map Entry.unnamed))
      fun type code => t.codeOf type = .ok code := by
  intro type code hcode
  obtain ⟨head, head', hhead, hhead', hsame⟩ := codeOf_stands hs hcode
  have hf : t.canonicalFormer type = some head.former.canonical := by
    rw [canonicalFormer, former_eq_some.mpr ⟨head, hhead, rfl⟩]
    rfl
  rcases typeOfCode_eq_ok hhead' with ⟨p, hp, hneg, rfl⟩ | ⟨i, c, rfl, hc, rfl⟩
  · cases head with
    | prim q =>
      obtain rfl : q = p := by simpa [Head.type, Ty.same] using hsame
      exact ⟨_, _, hf, by simp [Entry.former, hneg, hp], .prim q⟩
    | composite d => simp [Head.type, Ty.same] at hsame
  · cases head with
    | prim q => simp [Head.type, Ty.same] at hsame
    | composite d =>
      obtain ⟨e, he, hrel⟩ := entry_of_written h hc
      have hraw : (entries.map Entry.unnamed)[i]? = some e.unnamed := by
        rw [List.getElem?_map, he]
        rfl
      refine ⟨_, _, hf, Entry.former_index hraw, .composite ?_⟩
      have hdc := (Ty.same_composite.mp hsame).canonical
      have hall := (hdc.comp hrel).comp e.unnamed_rel
      apply hall.imp
      intro type code hr
      obtain ⟨_, ⟨u, hsame, hu⟩, rfl⟩ := hr
      exact codeOf_congr (Ty.same_symm hsame) hu

theorem length_written (h : t.entries.mapM t.toEntry = .ok entries) :
    entries.length = t.entries.length :=
  (except_mapM_eq_ok.mp h).length_eq.symm

theorem knownCode_of_typeOfCode {code : Int} {head : Head} (h : t.typeOfCode code = .ok head) :
    Entry.knownCode t.entries.length code = true := by
  rcases typeOfCode_eq_ok h with ⟨p, hp, hneg, _⟩ | ⟨i, e, rfl, he, _⟩
  · simp [Entry.knownCode, hneg, hp]
  · have hi := (List.getElem?_eq_some_iff.mp he).1
    have hpos : ¬ (i : Int) < 0 := by omega
    simpa [Entry.knownCode, hpos] using hi

theorem knownCode_of_codeOf (hs : t.Sound) {type : Ty} {code : Int} (h : t.codeOf type = .ok code) :
    Entry.knownCode t.entries.length code = true := by
  obtain ⟨_, head, _, hhead, _⟩ := codeOf_stands hs h
  exact knownCode_of_typeOfCode hhead

/-- An entry is written from a constructed type of the table. -/
theorem exists_of_written (h : t.entries.mapM t.toEntry = .ok entries) {e : Entry}
    (he : e ∈ entries) : ∃ c ∈ t.entries,
      c.canonical.Rel (fun type code => t.codeOf type = .ok code) e := by
  obtain ⟨i, hi⟩ := List.mem_iff_getElem?.mp he
  have hlt := (List.getElem?_eq_some_iff.mp hi).1
  rw [length_written h] at hlt
  obtain ⟨e', he', hrel⟩ := entry_of_written h (List.getElem?_eq_getElem hlt)
  rw [hi] at he'
  cases he'
  exact ⟨_, List.getElem_mem hlt, hrel⟩

end Entries

/-- What a type leads to on one side of a bisimulation is met on the other side. -/
theorem Reach.along {left right : Table} {R : Ty → Ty → Prop}
    (hR : IsBisimulation left.former right.former R) {a b u : Ty} (h : R a b)
    (hu : left.Reach a u) : ∃ v, right.Reach b v ∧ R u v := by
  induction hu with
  | refl => exact ⟨b, .refl, h⟩
  | member _ hf hm ih =>
    obtain ⟨v, hv, hr⟩ := ih
    obtain ⟨f, g, hf', hg, hfg⟩ := hR _ _ hr
    rw [hf] at hf'
    cases hf'
    obtain ⟨w, hw, hrw⟩ := exists_of_mem_right (Former.rel_iff.mp hfg).2.flip hm
    exact ⟨w, .member hv hg hw, hrw⟩

section Presentable
variable {env t : Table} {types : List Ty} {entries : List Entry}

/-- What the types of a message stand for is told by their codes. -/
theorem isBisimulation_written (hc : Copies env types t)
    (h : t.entries.mapM t.toEntry = .ok entries) :
    IsBisimulation env.canonicalFormer (Entry.former (entries.map Entry.unnamed)) fun u code =>
      ∃ v, (u.same v = true ∧ ∀ x ∈ u.names, t.isBound x = true) ∧ t.codeOf v = .ok code :=
  hc.isBisimulation.canonical.comp (isBisimulation_codeOf hc.sound h)

theorem isFunction_of_former {raw : List Entry} {code : Int} {f : Former Int}
    (h : Entry.former raw code = some f) (hf : f.shape.Callable) :
    Entry.isFunction raw.toArray code = true := by
  unfold Entry.former at h
  split at h
  · obtain ⟨p, _, rfl⟩ := Option.map_eq_some_iff.mp h
    cases hf
  · rename_i hpos
    obtain ⟨e, he, rfl⟩ := Option.map_eq_some_iff.mp h
    cases e <;> simp [Entry.isFunction, hpos, he] <;> exact hf

/-- The entries of a table of well-formed types give a reader no reason to refuse them. -/
theorem presentable_of_written (hs : t.Sound) (h : t.entries.mapM t.toEntry = .ok entries)
    (hlabels : ∀ c ∈ t.entries, c.shape.Tidy)
    (hmethods : ∀ ms, .service ms ∈ t.entries →
      ∀ m ∈ ms, ∃ f, t.former m.type = some f ∧ f.shape.Callable)
    {codes : List Int} (hcodes : ∀ code ∈ codes, Entry.knownCode t.entries.length code = true) :
    Presentable entries codes := by
  have hlength := length_written h
  refine ⟨?_, ?_, ?_, by rwa [hlength]⟩
  · intro e he code hcode
    obtain ⟨c, _, hrel⟩ := exists_of_written h he
    obtain ⟨m, _, hm⟩ := exists_of_mem_right hrel.members hcode
    rw [hlength]
    exact knownCode_of_codeOf hs hm
  · intro e he
    obtain ⟨c, hmem, hrel⟩ := exists_of_written h he
    rw [← hrel.shape_eq]
    exact Composite.ascends_canonical (hlabels c hmem)
  · intro e he m hm
    obtain ⟨c, hmem, hrel⟩ := exists_of_written h he
    cases e with
    | service ms =>
      cases c with
      | service ms' =>
        cases hrel with
        | service hms =>
          obtain ⟨m', hm', _, hcode⟩ := exists_of_mem_right hms hm
          rw [(sortBy_perm (·.name) ms').mem_iff] at hm'
          obtain ⟨f', hf', hcallable⟩ := hmethods ms' hmem m' hm'
          obtain ⟨f, g, hcanonical, hg, hfg⟩ := isBisimulation_codeOf hs h m'.type m.type hcode
          obtain rfl : f'.canonical = f := by
            rw [canonicalFormer, hf'] at hcanonical
            exact Option.some.inj hcanonical
          rw [← Entry.isFunction_unnamed]
          apply isFunction_of_former hg
          rw [← (Former.rel_iff.mp hfg).1]
          exact Former.callable_canonical hcallable
      | _ => cases hrel
    | _ => cases hm

/-- The entries and codes of a message of well-formed types give a reader no reason to refuse. -/
theorem presentable (hc : Copies env types t)
    (hnames : ∀ type ∈ types, ∀ x ∈ type.names, t.isBound x = true)
    (ht : ∀ type ∈ types, env.Legible type) (h : t.entries.mapM t.toEntry = .ok entries)
    {codes : List Int} (hcodes : ∀ code ∈ codes, ∃ type, t.codeOf type = .ok code) :
    Presentable entries codes := by
  refine presentable_of_written hc.sound h (fun c hmem => ?_) (fun ms hmem m hm => ?_)
    fun code hcode => ?_
  · obtain ⟨type, htype, u, hu, hf⟩ := hc.entries c hmem
    exact (ht type htype).labels u _ hu hf
  · obtain ⟨type, htype, u, hu, hf⟩ := hc.entries _ hmem
    obtain ⟨f, hf', hcallable⟩ := (ht type htype).methods u ms hu hf m hm
    obtain ⟨_, _, _, hbound⟩ := Reach.along hc.isBisimulation
      ⟨Ty.same_refl type, hnames type htype⟩ (.member hu hf (List.mem_map_of_mem hm))
    obtain ⟨f', g, hleft, hright, hfg⟩ := hc.isBisimulation m.type m.type ⟨Ty.same_refl _, hbound⟩
    rw [hf'] at hleft
    cases hleft
    exact ⟨g, hright, by rwa [← (Former.rel_iff.mp hfg).1]⟩
  · obtain ⟨type, htype⟩ := hcodes code hcode
    exact knownCode_of_codeOf hc.sound htype

/-- Nothing that the types lead to is missing from the copy. -/
theorem Copies.closed (hc : Copies env types t) {type : Ty}
    (hnames : ∀ x ∈ type.names, t.isBound x = true) : t.Closed type := by
  intro x hx
  obtain ⟨u, _, hsame, hbound⟩ :=
    Reach.along hc.isBisimulation.flip ⟨Ty.same_refl type, hnames⟩ hx
  obtain rfl : u = .named x := by
    cases u <;> simp_all [Ty.same]
  exact hbound x (List.mem_singleton_self x)

theorem Copies.uniqueIds (hc : Copies env types t) {type : Ty}
    (hnames : ∀ x ∈ type.names, t.isBound x = true) (h : env.UniqueIds type) : t.UniqueIds type := by
  intro v fields hv hfields
  obtain ⟨u, hu, hr⟩ := Reach.along hc.isBisimulation.flip ⟨Ty.same_refl type, hnames⟩ hv
  obtain ⟨f, g, hf, hg, hfg⟩ := hc.isBisimulation u v hr
  have hids : ∀ {c d : Composite Ty}, c.Rel (fun u v => u.same v = true ∧
      ∀ x ∈ u.names, t.isBound x = true) d → d = .record fields ∨ d = .variant fields →
      env.former u = some (.composite c) → (fields.map (·.id)).Nodup := by
    rintro c d hcd (rfl | rfl) hc
    · cases hcd with
      | record h' =>
        rw [← (forall₂_fields.mp h').1]
        exact h u _ hu (.inl hc)
    · cases hcd with
      | variant h' =>
        rw [← (forall₂_fields.mp h').1]
        exact h u _ hu (.inr hc)
  cases hfg with
  | prim p => rcases hfields with h' | h' <;> rw [hg] at h' <;> cases h'
  | @composite c d hcd =>
    rw [hg] at hfields
    simp only [Option.some.injEq, Former.composite.injEq] at hfields
    exact hids hcd hfields hf

/-- Well-formed types are well-formed in the copy. -/
theorem Copies.tidy (hc : Copies env types t) {type : Ty}
    (hnames : ∀ x ∈ type.names, t.isBound x = true) (ht : env.Tidy type) : t.Tidy type := by
  have hback : ∀ {v}, t.Reach type v → ∃ u, env.Reach type u ∧ u.same v = true ∧
      ∀ x ∈ u.names, t.isBound x = true := by
    intro v hv
    exact Reach.along hc.isBisimulation.flip ⟨Ty.same_refl type, hnames⟩ hv
  constructor
  · intro v g hv hg
    obtain ⟨u, hu, hr⟩ := hback hv
    obtain ⟨f, g', hf, hg', hfg⟩ := hc.isBisimulation u v hr
    rw [hg] at hg'
    cases hg'
    rw [← (Former.rel_iff.mp hfg).1]
    exact ht.labels u f hu hf
  · intro v ms hv hg m hm
    obtain ⟨u, hu, hr⟩ := hback hv
    obtain ⟨f, g', hf, hg', hfg⟩ := hc.isBisimulation u v hr
    rw [hg] at hg'
    cases hg'
    cases hfg with
    | composite hfg =>
      cases hfg with
      | @service ms' _ hms =>
        obtain ⟨m', hm', _, hr'⟩ := exists_of_mem_right hms hm
        obtain ⟨args, results, modes, hfunc⟩ := ht.methods u ms' hu hf m' hm'
        obtain ⟨f, g, hf', hg', hfg⟩ := hc.isBisimulation _ _ hr'
        rw [hfunc] at hf'
        cases hf'
        cases hfg with
        | composite hfg =>
          cases hfg
          exact ⟨_, _, _, hg'⟩

/-- In the graph of the entries as they are read, labels are in order already. -/
theorem canonical_former {raw : List Entry} (h : ∀ e ∈ raw, e.shape.Ascends) :
    (fun code => (Entry.former raw code).map Former.canonical) = Entry.former raw := by
  funext code
  unfold Entry.former
  split
  · cases Prim.ofOpcode? code <;> rfl
  · cases he : raw[code.toNat]? with
    | none => rfl
    | some e =>
      have hself := Composite.canonical_of_ascends (h e (List.mem_of_getElem? he))
      exact congrArg (fun e => some (Former.composite e)) hself

theorem Rebuilds.isBisimulation_canonical {raw : List Entry} {codes : List Int} {s : Rebuilt}
    {args : List Ty} (hs : Rebuilds raw.toArray codes s t args)
    (h : ∀ e ∈ raw, e.shape.Ascends) :
    IsBisimulation t.canonicalFormer (Entry.former raw) fun type code => s.Stands code type := by
  rw [← canonical_former h]
  exact hs.isBisimulation.canonical

end Presentable

end Table

end Didl
