import Didl.Proofs.Building
import Didl.Proofs.Traversal

namespace Didl.Table
variable {env t u : Table} {types : List Ty}

def Labelled (t : Table) (i : Nat) : Prop := ∃ x, t.labelCode? x = some (i : Int)

def Holds (t : Table) (i j : Nat) : Prop :=
  ∃ c d, t.entries[i]? = some c ∧ t.entries[j]? = some d ∧
    ∃ p ∈ (Ty.composite c).parts, (Ty.composite p).same (.composite d) = true

theorem Holds.refl {i : Nat} {c : Composite Ty} (h : t.entries[i]? = some c) : t.Holds i i :=
  ⟨c, c, h, h, c, by rw [Ty.parts_composite]; exact List.mem_cons_self, Ty.same_refl _⟩

theorem Holds.trans {i j k : Nat} (h : t.Holds i j) (h' : t.Holds j k) : t.Holds i k := by
  obtain ⟨c, d, hc, hd, p, hp, hsame⟩ := h
  obtain ⟨d', e, hd', he, q, hq, hsame'⟩ := h'
  obtain rfl : d = d' := Option.some.inj (hd.symm.trans hd')
  obtain ⟨q', hq', hqq⟩ := Ty.parts_of_same (Ty.same_symm hsame) hq
  exact ⟨c, e, hc, he, q', Ty.parts_subset hp hq', Ty.same_trans hqq hsame'⟩

theorem Holds.extends {i j : Nat} (h : t.Holds i j) (hext : t.Extends u) : u.Holds i j := by
  obtain ⟨c, d, hc, hd, hrest⟩ := h
  exact ⟨c, d, hext.entries i c hc, hext.entries j d hd, hrest⟩

theorem Labelled.extends {i : Nat} (h : t.Labelled i) (hext : t.Extends u) : u.Labelled i :=
  h.imp fun x hx => hext.labels x _ hx

theorem Exact.lt_of_labelled (h : t.Exact types) {i : Nat} (hi : t.Labelled i) : i < t.size := by
  obtain ⟨x, hx⟩ := hi
  rcases h.label_code hx with ⟨p, hp⟩ | ⟨j, hj, hij⟩
  · have := opcode_neg p
    omega
  · omega

/-- Entries that are the same have one index. -/
theorem Exact.index_inj (h : t.Exact types) {i j : Nat} {c d : Composite Ty}
    (hc : t.entries[i]? = some c) (hd : t.entries[j]? = some d)
    (hsame : (Ty.composite c).same (.composite d) = true) : i = j := by
  have hi := codeOf_congr hsame (h.codeOf_entry hc)
  rw [h.codeOf_entry hd] at hi
  cases hi
  rfl

/-- What is appended occurs among what is added. -/
theorem addAll_entries (t : Table) (cs : List (Composite Ty)) :
    ∃ new, (cs.foldl add t).entries = t.entries ++ new ∧ new ⊆ cs := by
  induction cs generalizing t with
  | nil => exact ⟨[], (List.append_nil _).symm, nofun⟩
  | cons c cs ih =>
    obtain ⟨new, hnew, hsub⟩ := ih (t.add c)
    rw [List.foldl_cons, hnew]
    unfold add
    split
    · exact ⟨new, rfl, fun d hd => List.mem_cons_of_mem _ (hsub hd)⟩
    · refine ⟨c :: new, by simp, ?_⟩
      rw [List.cons_subset]
      exact ⟨List.mem_cons_self, fun d hd => List.mem_cons_of_mem _ (hsub hd)⟩

/-- An entry behind the old ones lists something that was added. -/
theorem mem_of_appended {cs : List (Composite Ty)} {k : Nat} {e : Composite Ty}
    (hle : t.size ≤ k) (he : (cs.foldl add t).entries[k]? = some e) : e ∈ cs := by
  obtain ⟨new, hnew, hsub⟩ := addAll_entries t cs
  rw [hnew, List.getElem?_append_right hle] at he
  exact hsub (List.mem_of_getElem? he)

/-- Binding a name that was not bound adds what occurs in its type and nothing else. -/
theorem registerLabel_eq {name : String} {type : Ty} {code : Int}
    (h : t.registerLabel name type = .ok (code, u)) :
    u = t ∨ (type.parts.foldl add t).codeOf type = .ok code ∧
      u.entries = (type.parts.foldl add t).entries := by
  unfold registerLabel at h
  split at h
  · cases h
    exact .inl rfl
  · split at h
    · rename_i hreg
      cases h
      obtain ⟨rfl, hcode⟩ := register_eq t type hreg
      exact .inr ⟨hcode, rfl⟩
    · cases h

/-- A constructed type is listed in full already, or it is listed first of all that it adds. -/
theorem Exact.addAll_first (h : t.Exact types) (c : Composite Ty) :
    (Ty.composite c).parts.foldl add t = t ∨
      ((Ty.composite c).parts.foldl add t).entries[t.size]? = some c := by
  cases hindex : t.indexOf? c with
  | some i =>
    obtain ⟨e, he, hsame⟩ := indexOf?_eq_some hindex
    refine .inl (addAll_of_indexOf? fun d hd => ?_)
    obtain ⟨d', hd', hsame'⟩ := Ty.parts_of_same (Ty.same_symm hsame) hd
    rw [← indexOf?_congr hsame']
    exact h.whole _ e (List.mem_of_getElem? he) (Nat.le_refl _) d' hd'
  | none =>
    right
    rw [Ty.parts_composite, List.foldl_cons, add, hindex]
    exact (addAll_extends _ _).entries _ c List.getElem?_concat_length

/-- Each entry stands behind a labelled one that holds it, or is that one. -/
def Covered (t : Table) : Prop :=
  ∀ k < t.size, ∃ i ≤ k, t.Labelled i ∧ t.Holds i k

theorem Covered.bind (h : t.Covered) (hexact : t.Exact types) (p : String × Head) :
    (copyLabels.bind t p).Covered := by
  obtain ⟨name, head⟩ := p
  obtain ⟨code, hreg⟩ := bind_head t name head
  generalize copyLabels.bind t (name, head) = u at hreg ⊢
  have hext := registerLabel_extends hreg
  intro k hk
  by_cases hold : k < t.size
  · obtain ⟨i, hle, hi, hholds⟩ := h k hold
    exact ⟨i, hle, hi.extends hext, hholds.extends hext⟩
  · rcases registerLabel_eq hreg with rfl | ⟨hcode, hentries⟩
    · exact absurd hk hold
    · obtain ⟨e, he⟩ : ∃ e, u.entries[k]? = some e := ⟨_, List.getElem?_eq_getElem hk⟩
      rw [hentries] at he
      have hpart := mem_of_appended (Nat.not_lt.mp hold) he
      cases head with
      | prim p => cases hpart
      | composite c =>
        rcases hexact.addAll_first c with hsame | hfirst
        · simp only [size, hentries, Head.type, hsame] at hk
          exact absurd hk hold
        · rw [Head.type, (hexact.addAll (.composite c)).codeOf_entry hfirst] at hcode
          cases hcode
          replace hfirst := (congrArg (·[t.size]?) hentries).trans hfirst
          rw [← hentries] at he
          exact ⟨t.size, Nat.not_lt.mp hold, ⟨name, registerLabel_bound hreg⟩, c, e, hfirst, he,
            e, hpart, Ty.same_refl _⟩

theorem covered_bindAll (h : t.Covered) (hexact : t.Exact types) (found : List (String × Head)) :
    (found.foldl copyLabels.bind t).Covered := by
  induction found generalizing t types with
  | nil => exact h
  | cons p found ih =>
    have hbind := hexact.bindAll [p]
    exact ih (h.bind hexact p) hbind

/-- Each entry stands behind a labelled one that holds it, or behind all that are labelled. -/
def Listed (t : Table) : Prop :=
  ∀ k < t.size, (∃ i ≤ k, t.Labelled i ∧ t.Holds i k) ∨ ∀ i, t.Labelled i → i < k

/-- An argument's type adds entries behind all labelled ones. -/
theorem Listed.register (h : t.Listed) (hexact : t.Exact types) {type : Ty} {code : Int}
    (hreg : t.register type = .ok (code, u)) : u.Listed := by
  obtain ⟨rfl, _⟩ := register_eq t type hreg
  have hext := addAll_extends t type.parts
  have hlabelled : ∀ i, (type.parts.foldl add t).Labelled i → t.Labelled i := fun i ⟨x, hx⟩ =>
    ⟨x, by rwa [labelCode?, addAll_labels] at hx⟩
  intro k _
  by_cases hold : k < t.size
  · rcases h k hold with ⟨i, hle, hi, hholds⟩ | hall
    · exact .inl ⟨i, hle, hi.extends hext, hholds.extends hext⟩
    · exact .inr fun i hi => hall i (hlabelled i hi)
  · exact .inr fun i hi =>
      Nat.lt_of_lt_of_le (hexact.lt_of_labelled (hlabelled i hi)) (Nat.not_lt.mp hold)

end Didl.Table

namespace Didl.Message
open Table
variable {env sub : Table} {types : List Ty} {codes : List Int}

/-- The table of a message holds nothing twice and lists the definitions of names first. -/
theorem tableFor_listed (h : tableFor env types = .ok (codes, sub)) :
    ∃ registered, sub.Exact registered ∧ sub.Listed := by
  unfold tableFor at h
  simp only [bind, Except.bind] at h
  split at h
  · cases h
  · rename_i named hnamed
    split at h
    · cases h
    · rename_i r hall
      obtain ⟨all, u⟩ := r
      cases h
      have hcovered := except_foldlM_invariant
        (I := fun t => ∃ registered, t.Exact registered ∧ t.Covered)
        (fun type _ t t' hinvariant hcopy => by
          obtain ⟨registered, hexact, hcovered⟩ := hinvariant
          split at hcopy
          · rename_i hcopied
            cases hcopy
            have hfold := congrArg Prod.snd hcopied
            simp only [copyLabels] at hfold
            rw [← hfold]
            exact ⟨_, hexact.bindAll _, covered_bindAll hcovered hexact _⟩
          · cases hcopy) hnamed ⟨[], .empty, nofun⟩
      obtain ⟨registered, hexact, hcovered⟩ := hcovered
      exact except_foldlM_invariant
        (I := fun r : List Int × Table => ∃ registered, r.2.Exact registered ∧ r.2.Listed)
        (fun type _ r r' hinvariant hreg => by
          obtain ⟨registered, hexact, hlisted⟩ := hinvariant
          cases hregister : r.2.register type with
          | error e =>
            simp only [hregister] at hreg
            cases hreg
          | ok q =>
            simp only [hregister] at hreg
            cases hreg
            have hrun := Call.run_exact hexact (.register type)
            simp only [Call.run, hregister] at hrun
            exact ⟨_, hrun, hlisted.register hexact hregister⟩) hall
        ⟨registered, hexact, fun k hk => .inl (hcovered k hk)⟩

end Didl.Message
