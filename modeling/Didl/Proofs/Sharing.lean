import Didl.Proofs.Finishing
import Didl.Proofs.Listing
import Didl.Proofs.Presenting

namespace Didl

def Composite.inner (c : Composite Ty) : List (Composite Ty) := c.members.flatMap Ty.parts

theorem Ty.mem_parts {c d : Composite Ty} : d ∈ (Ty.composite c).parts ↔ d = c ∨ d ∈ c.inner := by
  rw [parts_composite, List.mem_cons, Composite.inner]

theorem Composite.mem_inner {c p d : Composite Ty} (hp : p ∈ (Ty.composite c).parts)
    (hd : .composite d ∈ p.members) : d ∈ c.inner := by
  have hself : d ∈ p.inner :=
    List.mem_flatMap.mpr ⟨_, hd, by rw [Ty.parts_composite]; exact List.mem_cons_self⟩
  rcases Ty.mem_parts.mp hp with rfl | hp
  · exact hself
  · obtain ⟨m, hm, hp⟩ := List.mem_flatMap.mp hp
    exact List.mem_flatMap.mpr ⟨m, hm, Ty.parts_subset hp (Ty.mem_parts.mpr (.inr hself))⟩

theorem Composite.inner_of_same {c d : Composite Ty}
    (h : (Ty.composite c).same (.composite d) = true) {p : Composite Ty} (hp : p ∈ c.inner) :
    ∃ q ∈ d.inner, (Ty.composite q).same (.composite p) = true := by
  obtain ⟨m, hm, hp⟩ := List.mem_flatMap.mp hp
  obtain ⟨n, hn, hsame⟩ := exists_of_mem_right (Ty.same_composite.mp h).flip.members hm
  obtain ⟨q, hq, hqp⟩ := Ty.parts_of_same hsame hp
  exact ⟨q, List.mem_flatMap.mpr ⟨n, hn, hq⟩, hqp⟩

theorem Ty.size_le_of_parts {type : Ty} {c : Composite Ty} (h : c ∈ type.parts) :
    (composite c).size ≤ type.size := by
  induction type using induct with
  | prim | named => cases h
  | composite d ih =>
    rcases mem_parts.mp h with rfl | h
    · exact Nat.le_refl _
    · obtain ⟨m, hm, hc⟩ := List.mem_flatMap.mp h
      exact Nat.le_of_lt (Nat.lt_of_le_of_lt (ih m hm hc) (size_lt_of_member hm))

theorem Ty.size_lt_of_inner {c d : Composite Ty} (h : d ∈ c.inner) :
    (composite d).size < (composite c).size := by
  obtain ⟨m, hm, hd⟩ := List.mem_flatMap.mp h
  exact Nat.lt_of_le_of_lt (size_le_of_parts hd) (size_lt_of_member hm)

def Entry.Edge (raw : List Entry) (i j : Nat) : Prop := ∃ e, raw[i]? = some e ∧ (j : Int) ∈ e.members

namespace Table

def LeadsTo (t : Table) (c d : Composite Ty) : Prop :=
  ∃ m ∈ c.members, ∃ u e, t.Reach m u ∧ t.former u = some (.composite e) ∧
    (Ty.composite e).same (.composite d) = true

/-- No type that is written out inside the definition of a name and leads back to this definition is
written out in the definition of another name, unless both names are defined as the same type. -/
def Unshared (t : Table) (types : List Ty) : Prop :=
  ∀ x y c d, (∃ type ∈ types, t.Reach type (.named x)) → (∃ type ∈ types, t.Reach type (.named y)) →
    t.resolve x = .ok (.composite c) → t.resolve y = .ok (.composite d) →
    ∀ p ∈ (Ty.composite c).parts, ∀ q ∈ d.inner, (Ty.composite p).same (.composite q) = true →
      t.LeadsTo q d → (Ty.composite c).same (.composite d) = true

section Entries
variable {t : Table} {registered : List Ty} {entries : List Entry}

def HoldsInside (t : Table) (i j : Nat) : Prop :=
  ∃ c d, t.entries[i]? = some c ∧ t.entries[j]? = some d ∧
    ∃ p ∈ c.inner, (Ty.composite p).same (.composite d) = true

theorem HoldsInside.holds {i j : Nat} (h : t.HoldsInside i j) : t.Holds i j := by
  obtain ⟨c, d, hc, hd, p, hp, hsame⟩ := h
  exact ⟨c, d, hc, hd, p, Ty.mem_parts.mpr (.inr hp), hsame⟩

theorem Holds.inside {i j k : Nat} (h : t.Holds i j) (h' : t.HoldsInside j k) :
    t.HoldsInside i k := by
  obtain ⟨c, d, hc, hd, p, hp, hsame⟩ := h
  obtain ⟨d', e, hd', he, q, hq, hsame'⟩ := h'
  obtain rfl : d = d' := Option.some.inj (hd.symm.trans hd')
  obtain ⟨q', hq', hqq⟩ := Composite.inner_of_same (Ty.same_symm hsame) hq
  refine ⟨c, e, hc, he, q', ?_, Ty.same_trans hqq hsame'⟩
  rcases Ty.mem_parts.mp hp with rfl | hp
  · exact hq'
  · obtain ⟨m, hm, hp⟩ := List.mem_flatMap.mp hp
    exact List.mem_flatMap.mpr ⟨m, hm, Ty.parts_subset hp (Ty.mem_parts.mpr (.inr hq'))⟩

/-- No type is inside of a type that occurs in it. -/
theorem HoldsInside.asymm {i j : Nat} (h : t.HoldsInside i j) : ¬ t.Holds j i := by
  rintro ⟨d', c', hd', hc', q, hq, hsame'⟩
  obtain ⟨c, d, hc, hd, p, hp, hsame⟩ := h
  obtain rfl : c = c' := Option.some.inj (hc.symm.trans hc')
  obtain rfl : d = d' := Option.some.inj (hd.symm.trans hd')
  have hlt := Ty.size_lt_of_inner hp
  have hle := Ty.size_le_of_parts hq
  rw [Ty.size_of_same hsame] at hlt
  rw [Ty.size_of_same hsame'] at hle
  omega

/-- A member that is an entry has a name or is written out. -/
theorem codeOf_index {i j : Nat} {c : Composite Ty} {m : Ty} (hc : t.entries[i]? = some c)
    (hm : m ∈ c.members) (h : t.codeOf m = .ok (j : Int)) :
    ((∃ x, m = .named x) ∧ t.Labelled j) ∨ t.HoldsInside i j := by
  cases m with
  | prim p =>
    have hneg := opcode_neg p
    simp only [codeOf, Except.ok.injEq] at h
    omega
  | named x =>
    simp only [codeOf] at h
    split at h
    · rename_i code hcode
      cases h
      exact .inl ⟨⟨x, rfl⟩, x, hcode⟩
    · cases h
  | composite d =>
    simp only [codeOf] at h
    split at h
    · rename_i k hk
      obtain rfl : k = j := by
        simp only [Except.ok.injEq] at h
        omega
      obtain ⟨e, he, hsame⟩ := indexOf?_eq_some hk
      have hself : d ∈ c.inner :=
        Composite.mem_inner (Ty.mem_parts.mpr (.inl rfl)) hm
      exact .inr ⟨c, e, hc, he, d, hself, Ty.same_symm hsame⟩
    · cases h

/-- The members of an entry as it is read are the codes of those that it lists. -/
theorem edge_of_written (h : t.entries.mapM t.toEntry = .ok entries) {i j : Nat}
    (hij : Entry.Edge (entries.map Entry.unnamed) i j) :
    ∃ c, t.entries[i]? = some c ∧ ∃ m ∈ c.members, t.codeOf m = .ok (j : Int) := by
  obtain ⟨e, he, hj⟩ := hij
  obtain ⟨e', he', rfl⟩ : ∃ e', entries[i]? = some e' ∧ e'.unnamed = e := by
    rwa [List.getElem?_map, Option.map_eq_some_iff] at he
  have hi : i < t.entries.length := by
    rw [← length_written h]
    exact (List.getElem?_eq_some_iff.mp he').1
  obtain ⟨e'', he'', hrel⟩ := entry_of_written h (List.getElem?_eq_getElem hi)
  obtain rfl : e' = e'' := Option.some.inj (he'.symm.trans he'')
  rw [Entry.members_unnamed] at hj
  obtain ⟨m, hm, hcode⟩ := exists_of_mem_right hrel.members hj
  exact ⟨_, List.getElem?_eq_getElem hi, m, Composite.mem_members_canonical.mp hm, hcode⟩

theorem edge_cases (h : t.entries.mapM t.toEntry = .ok entries) {i j : Nat}
    (hij : Entry.Edge (entries.map Entry.unnamed) i j) : t.Labelled j ∨ t.HoldsInside i j := by
  obtain ⟨c, hc, m, hm, hcode⟩ := edge_of_written h hij
  exact (codeOf_index hc hm hcode).imp_left And.right

theorem Holds.refl_of_lt {i : Nat} (h : i < t.size) : t.Holds i i := .refl (List.getElem?_eq_getElem h)

theorem lt_of_edge (he : t.Exact registered) (h : t.entries.mapM t.toEntry = .ok entries) {i j : Nat}
    (hij : Entry.Edge (entries.map Entry.unnamed) i j) : i < t.size ∧ j < t.size := by
  obtain ⟨c, hc, _⟩ := edge_of_written h hij
  refine ⟨(List.getElem?_eq_some_iff.mp hc).1, ?_⟩
  rcases edge_cases h hij with hj | ⟨_, _, _, hd, _⟩
  · exact he.lt_of_labelled hj
  · exact (List.getElem?_eq_some_iff.mp hd).1

end Entries

section Descent
open Rebuilt
variable {t : Table} {registered : List Ty} {entries : List Entry} {start : Nat}

/-- What a search has entered, last of all, is within an entry that is labelled or with which the
search started, and which is still open. -/
theorem holds_of_descent (he : t.Exact registered) (h : t.entries.mapM t.toEntry = .ok entries)
    {path : List Nat} (hd : Descent (entries.map Entry.unnamed).toArray start path) :
    ∀ i up, path = i :: up → i < t.size →
      ∃ w ∈ path, t.Holds w i ∧ (t.Labelled w ∨ w = start) := by
  induction hd with
  | start =>
    rintro i up heq hi
    cases heq
    exact ⟨start, List.mem_cons_self, .refl_of_lt hi, .inr rfl⟩
  | @enter i j path e _ hraw hj _ _ ih =>
    rintro _ _ heq hi
    cases heq
    have hij : Entry.Edge (entries.map Entry.unnamed) i j := ⟨e, by simpa using hraw, hj⟩
    rcases edge_cases h hij with hlabel | hin
    · exact ⟨j, List.mem_cons_self, .refl_of_lt hi, .inl hlabel⟩
    · obtain ⟨w, hw, hholds, hkind⟩ := ih i path rfl (lt_of_edge he h hij).1
      exact ⟨w, List.mem_cons_of_mem _ hw, hholds.trans hin.holds, hkind⟩

/-- Below an open entry a search enters what occurs in it, until it enters a labelled entry, which
the open one leads to. -/
theorem below_of_descent (he : t.Exact registered) (h : t.entries.mapM t.toEntry = .ok entries)
    {deep up : List Nat} {j : Nat}
    (hd : Descent (entries.map Entry.unnamed).toArray start (deep ++ j :: up)) (hj : j < t.size) :
    ∀ i, (deep ++ [j]).head? = some i →
      t.Holds j i ∨ ∃ r ∈ deep, t.Labelled r ∧ t.Holds r i := by
  induction deep with
  | nil =>
    rintro i hi
    cases hi
    exact .inl (.refl_of_lt hj)
  | cons i deep ih =>
    rintro _ heq
    cases heq
    rw [List.cons_append] at hd
    obtain ⟨i', rest, hrest⟩ : ∃ i' rest, deep ++ j :: up = i' :: rest := by
      cases deep <;> exact ⟨_, _, rfl⟩
    have hhead : (deep ++ [j]).head? = some i' := by
      cases deep <;> cases hrest <;> rfl
    rw [hrest] at hd
    cases hd with
    | @enter _ _ _ e hd hraw hmem _ _ =>
      have hij : Entry.Edge (entries.map Entry.unnamed) i' i := ⟨e, by simpa using hraw, hmem⟩
      rcases edge_cases h hij with hlabel | hin
      · exact .inr ⟨i, List.mem_cons_self, hlabel, .refl_of_lt (lt_of_edge he h hij).2⟩
      · rcases ih (hrest ▸ hd) i' hhead with hholds | ⟨r, hr, hlabel, hholds⟩
        · exact .inl (hholds.trans hin.holds)
        · exact .inr ⟨r, List.mem_cons_of_mem _ hr, hlabel, hholds.trans hin.holds⟩

/-- An open entry leads to all that was entered after it. -/
theorem leads_of_descent {raw : List Entry} {deep up : List Nat} {j : Nat}
    (hd : Descent raw.toArray start (deep ++ j :: up)) :
    ∀ r ∈ deep, Relation.TransGen (Entry.Edge raw) j r := by
  induction deep with
  | nil => nofun
  | cons i deep ih =>
    rw [List.cons_append] at hd
    obtain ⟨i', rest, hrest⟩ : ∃ i' rest, deep ++ j :: up = i' :: rest := by
      cases deep <;> exact ⟨_, _, rfl⟩
    rw [hrest] at hd
    cases hd with
    | @enter _ _ _ e hd hraw hmem _ _ =>
      have hij : Entry.Edge raw i' i := ⟨e, by simpa using hraw, hmem⟩
      have hdeep := ih (hrest ▸ hd)
      refine List.forall_mem_cons.mpr ⟨?_, hdeep⟩
      cases deep with
      | nil =>
        cases hrest
        exact .single hij
      | cons k deep =>
        cases hrest
        exact .tail (hdeep _ List.mem_cons_self) hij

/-- What lies inside a labelled entry and leads to it occurs in no other labelled entry. -/
def Separate (t : Table) (raw : List Entry) : Prop :=
  ∀ i k j, t.Labelled i → t.Labelled k → t.Holds i j → t.HoldsInside k j →
    Relation.TransGen (Entry.Edge raw) j k → i = k

/-- Where a search comes back to an open entry, the member that leads there is a name. -/
theorem named_of_back (he : t.Exact registered) (hlisted : t.Listed)
    (h : t.entries.mapM t.toEntry = .ok entries)
    (hseparate : t.Separate (entries.map Entry.unnamed)) {i j : Nat}
    (hback : Back (entries.map Entry.unnamed).toArray i j) {c : Composite Ty} {m : Ty}
    (hc : t.entries[i]? = some c) (hm : m ∈ c.members) (hcode : t.codeOf m = .ok (j : Int)) :
    ∃ x, m = .named x := by
  rcases codeOf_index hc hm hcode with ⟨hname, _⟩ | hin
  · exact hname
  exfalso
  obtain ⟨start, path, hd, hj⟩ := hback
  obtain ⟨deep, up, hpath⟩ := List.append_of_mem hj
  have hnodup := hd.nodup
  have hle := hd.start_le
  rw [hpath] at hd hnodup hle
  have hjsize : j < t.size := by
    obtain ⟨_, _, _, hd', _⟩ := hin
    exact (List.getElem?_eq_some_iff.mp hd').1
  have hhead : (deep ++ [j]).head? = some i := by
    cases deep <;> cases hpath <;> rfl
  rcases below_of_descent he h hd hjsize i hhead with hholds | ⟨r, hr, hlabel, hholds⟩
  · exact hin.asymm hholds
  -- The labelled entry `r` was entered below `j`, holds it inside, and is led to from it.
  have hrj := hholds.inside hin
  have hleads := leads_of_descent hd r hr
  have hapart : ∀ w ∈ j :: up, w ≠ r := fun w hw heq =>
    (List.nodup_append.mp hnodup).2.2 r hr w hw heq.symm
  obtain ⟨w, hw, hwj, hwkind⟩ := holds_of_descent he h hd.around j up rfl hjsize
  rcases hwkind with hwlabel | rfl
  · exact hapart w hw (hseparate w r j hwlabel hlabel hwj hrj hleads)
  · have hwsize : w < t.size := by
      obtain ⟨_, _, hw', _⟩ := hwj
      exact (List.getElem?_eq_some_iff.mp hw').1
    have hwr : w ≤ r := hle r (List.mem_append_left _ hr)
    rcases hlisted w hwsize with ⟨k, hkw, hklabel, hk⟩ | hall
    · obtain rfl := hseparate k r j hklabel hlabel (hk.trans hwj) hrj hleads
      exact hapart w hw (Nat.le_antisymm hwr hkw)
    · exact absurd (hall r hlabel) (Nat.not_lt.mpr hwr)

end Descent

section Copies
variable {env t : Table} {types registered : List Ty} {entries : List Entry}

def Coded (t : Table) (u : Ty) (code : Int) : Prop :=
  t.codeOf u = .ok code ∧ ∀ x ∈ u.names, t.isBound x = true

/-- What the types of a message stand for is told by their codes. -/
theorem isBisimulation_coded (hc : Copies env types t)
    (h : t.entries.mapM t.toEntry = .ok entries) :
    IsBisimulation env.canonicalFormer (Entry.former (entries.map Entry.unnamed)) t.Coded := by
  intro u code hu
  obtain ⟨f, g, hf, hg, hfg⟩ :=
    isBisimulation_written hc h u code ⟨u, ⟨Ty.same_refl u, hu.2⟩, hu.1⟩
  refine ⟨f, g, hf, hg, hfg.imp ?_⟩
  rintro m code' ⟨v, ⟨hsame, hnames⟩, hv⟩
  exact ⟨codeOf_congr (Ty.same_symm hsame) hv, hnames⟩

/-- A type whose code is an index shows in the one table what the other one lists there. -/
theorem Coded.former (hc : Copies env types t) {u : Ty} {i : Nat} (h : t.Coded u i) :
    ∃ c d, env.former u = some (.composite c) ∧ t.entries[i]? = some d ∧
      (Ty.composite c).same (.composite d) = true := by
  obtain ⟨head, head', hhead, hhead', hstands⟩ := codeOf_stands hc.sound h.1
  rcases typeOfCode_eq_ok hhead' with ⟨_, _, hneg, _⟩ | ⟨j, d, hij, hd, rfl⟩
  · omega
  obtain rfl : i = j := by omega
  obtain ⟨f, g, hf, hg, hfg⟩ := hc.isBisimulation u u ⟨Ty.same_refl u, h.2⟩
  obtain rfl : head.former = g :=
    Option.some.inj ((former_eq_some.mpr ⟨head, hhead, rfl⟩).symm.trans hg)
  cases head with
  | prim p => simp [Head.type, Ty.same] at hstands
  | composite d' =>
    cases hfg with
    | @composite c _ hcd =>
      have hsame := Ty.same_composite.mpr (hcd.imp fun _ _ h => h.1)
      exact ⟨c, d, hf, hd, Ty.same_trans hsame hstands⟩

/-- What an entry has as a member, a type that is written by this entry has. -/
theorem Coded.member (hc : Copies env types t) (h : t.entries.mapM t.toEntry = .ok entries)
    {u : Ty} {i k : Nat} (hu : t.Coded u i) (hik : Entry.Edge (entries.map Entry.unnamed) i k) :
    ∃ f, env.former u = some f ∧ ∃ m ∈ f.members, t.Coded m k := by
  obtain ⟨e, he, hk⟩ := hik
  obtain ⟨f, g, hf, hg, hfg⟩ := isBisimulation_coded hc h u i hu
  rw [Entry.former_index he] at hg
  cases hg
  obtain ⟨f', hf', rfl⟩ := Option.map_eq_some_iff.mp hf
  obtain ⟨m, hm, hmk⟩ := exists_of_mem_right (Former.rel_iff.mp hfg).2 hk
  refine ⟨f', hf', m, ?_, hmk⟩
  cases f' with
  | prim p => exact hm
  | composite c => exact Composite.mem_members_canonical.mp hm

theorem Coded.leads (hc : Copies env types t) (h : t.entries.mapM t.toEntry = .ok entries)
    {u : Ty} {i k : Nat} (hu : t.Coded u i)
    (hik : Relation.TransGen (Entry.Edge (entries.map Entry.unnamed)) i k) :
    ∃ f, env.former u = some f ∧ ∃ m ∈ f.members, ∃ w, env.Reach m w ∧ t.Coded w k := by
  induction hik with
  | single hij =>
    obtain ⟨f, hf, m, hm, hmk⟩ := hu.member hc h hij
    exact ⟨f, hf, m, hm, m, .refl, hmk⟩
  | tail _ hjk ih =>
    obtain ⟨f, hf, m, hm, w, hw, hwj⟩ := ih
    obtain ⟨g, hg, n, hn, hnk⟩ := hwj.member hc h hjk
    exact ⟨f, hf, m, hm, n, .member hw hg hn, hnk⟩

/-- A labelled entry is the definition of a name that the types lead to. -/
theorem definition_of_labelled (hc : Copies env types t) {i : Nat} {c : Composite Ty}
    (hi : t.Labelled i) (he : t.entries[i]? = some c) :
    ∃ x d, (∃ type ∈ types, env.Reach type (.named x)) ∧ env.resolve x = .ok (.composite d) ∧
      (Ty.composite d).same (.composite c) = true ∧
      ∀ y ∈ (Ty.composite d).names, t.isBound y = true := by
  obtain ⟨x, hx⟩ := hi
  have hbound : t.isBound x = true := Option.isSome_iff_exists.mpr ⟨_, hx⟩
  obtain ⟨head, head', hhead, hhead', hsame, hnames⟩ := hc.heads x hbound
  simp only [Table.resolve, hx, typeOfCode_index he, Except.ok.injEq] at hhead'
  subst hhead'
  cases head with
  | prim p => simp [Head.type, Ty.same] at hsame
  | composite d => exact ⟨x, d, hc.reached x hbound, hhead, hsame, hnames⟩

theorem separate_of_unshared (hunshared : env.Unshared types) (hc : Copies env types t)
    (he : t.Exact registered) (h : t.entries.mapM t.toEntry = .ok entries) :
    t.Separate (entries.map Entry.unnamed) := by
  rintro i k j hi hk ⟨c, e, hc', he', p, hp, hpe⟩ ⟨d, e', hd, he'', q, hq, hqe⟩ hleads
  obtain rfl : e = e' := Option.some.inj (he'.symm.trans he'')
  obtain ⟨x, cx, hxreach, hx, hcx, _⟩ := definition_of_labelled hc hi hc'
  obtain ⟨y, dy, hyreach, hy, hdy, hynames⟩ := definition_of_labelled hc hk hd
  obtain ⟨p', hp', hpp⟩ := Ty.parts_of_same (Ty.same_symm hcx) hp
  obtain ⟨q', hq', hqq⟩ := Composite.inner_of_same (Ty.same_symm hdy) hq
  have hqe' := Ty.same_trans hqq hqe
  have hq'names : ∀ z ∈ (Ty.composite q').names, t.isBound z = true := fun z hz =>
    hynames z (Ty.names_of_parts (Ty.mem_parts.mpr (.inr hq')) hz)
  have hq'code : t.Coded (.composite q') j :=
    ⟨codeOf_congr (Ty.same_symm hqe') (he.codeOf_entry he'), hq'names⟩
  have hq'leads : env.LeadsTo q' dy := by
    obtain ⟨f, hf, m, hm, w, hw, hwk⟩ := hq'code.leads hc h hleads
    cases hf
    obtain ⟨g, d', hg, hd', hgd⟩ := hwk.former hc
    obtain rfl : d = d' := Option.some.inj (hd.symm.trans hd')
    exact ⟨m, hm, w, g, hw, hg, Ty.same_trans hgd (Ty.same_symm hdy)⟩
  have hpq := Ty.same_trans (Ty.same_trans hpp hpe) (Ty.same_symm hqe')
  have hxy := hunshared x y cx dy hxreach hyreach hx hy p' hp' q' hq' hpq hq'leads
  exact he.index_inj hc' hd (Ty.same_trans (Ty.same_trans (Ty.same_symm hcx) hxy) hdy)

end Copies

end Table

end Didl
