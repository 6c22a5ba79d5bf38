import Didl.Proofs.Building
import Didl.Proofs.Presenting

namespace Didl.Table
variable {env t u : Table} {types : List Ty}

theorem Closed.reach {a b : Ty} (h : t.Closed a) (k : t.Reach a b) : t.Closed b :=
  fun x hx => h x (k.trans hx)

/-- A search among closed names does not fail. -/
theorem visit_closed (hs : t.Sound) {fresh : List (String × Int)} {pending : List String}
    (h : ∀ x ∈ pending, t.Closed (.named x)) : (visit t fresh pending).2 = none := by
  fun_induction visit t fresh pending with
  | case1 => rfl
  | case2 fresh name rest hcode =>
    have hbound := h name List.mem_cons_self name .refl
    rw [isBound, hcode] at hbound
    cases hbound
  | case3 fresh name rest code hcode hany e he =>
    obtain ⟨head, hhead⟩ := hs name code hcode
    rw [he] at hhead
    cases hhead
  | case4 fresh name rest code hcode hany head hhead found fault hvisit ih =>
    rw [hvisit] at ih
    refine ih fun x hx => ?_
    rcases List.mem_append.mp hx with hx | hx
    · have hresolve : t.resolve name = .ok head := by simp only [Table.resolve, hcode, hhead]
      exact (h name List.mem_cons_self).reach
        ((reach_of_resolve hresolve).1 x (List.mem_reverse.mp hx))
    · exact h x (List.mem_cons_of_mem _ hx)
  | case5 fresh name rest code hcode hany ih => exact ih fun x hx => h x (List.mem_cons_of_mem _ hx)

/-- The names that a closed type depends on can all be copied. -/
theorem copyLabels_closed (hs : env.Sound) {type : Ty} (hc : env.Closed type) (t : Table) :
    ∃ u, env.copyLabels type t = (none, u) :=
  ⟨_, Prod.ext (visit_closed hs fun _ hx => hc.reach (reach_of_names (List.mem_reverse.mp hx))) rfl⟩

/-- An entry can be written where each of its members has a code. -/
theorem toEntry_of_codes {c : Composite Ty} (h : ∀ m ∈ c.members, ∃ code, t.codeOf m = .ok code) :
    ∃ e, t.toEntry c = .ok e := by
  obtain ⟨codes, hcodes⟩ := exists_forall₂ fun m hm => h m (Composite.mem_members_canonical.mp hm)
  exact ⟨_, Composite.except_mapM_eq_ok.mpr ⟨codes, hcodes, rfl⟩⟩

/-- What a table needs so that an entry can be written: all that occurs in it is found among the
entries, and the names that occur there are bound. -/
theorem toEntry_returns (he : t.Exact types) {c : Composite Ty} (hc : c ∈ t.entries)
    (hnames : ∀ x ∈ (Ty.composite c).names, t.isBound x = true) : ∃ e, t.toEntry c = .ok e := by
  refine toEntry_of_codes fun m hm => ?_
  cases m with
  | prim p => exact ⟨p.opcode, rfl⟩
  | named x =>
    have hx : x ∈ (Ty.composite c).names := by
      rw [Ty.names_composite]
      exact List.mem_flatMap.mpr ⟨_, hm, List.mem_singleton_self x⟩
    obtain ⟨code, hcode⟩ := Option.isSome_iff_exists.mp (hnames x hx)
    exact ⟨code, by simp only [codeOf, hcode]⟩
  | composite d =>
    obtain ⟨i, hi⟩ := he.whole _ c hc (Nat.le_refl _) d (by
      rw [Ty.parts_composite]
      refine List.mem_cons_of_mem _ (List.mem_flatMap.mpr ⟨_, hm, ?_⟩)
      rw [Ty.parts_composite]
      exact List.mem_cons_self)
    exact ⟨i, by simp only [codeOf, hi]⟩

/-- Every name that a type of a copy leads to is bound there. -/
theorem Copies.reach_bound (h : Copies env types t) {type : Ty}
    (hnames : ∀ x ∈ type.names, t.isBound x = true) {v : Ty} (hv : env.Reach type v) :
    ∀ x ∈ v.names, t.isBound x = true := by
  obtain ⟨_, _, _, hbound⟩ := Reach.along h.isBisimulation ⟨Ty.same_refl type, hnames⟩ hv
  exact hbound

/-- No name that occurs in an entry of a copy is missing. -/
theorem Copies.entry_bound (h : Copies env types t)
    (hnames : ∀ type ∈ types, ∀ x ∈ type.names, t.isBound x = true) {c : Composite Ty}
    (hc : c ∈ t.entries) : ∀ x ∈ (Ty.composite c).names, t.isBound x = true := by
  intro x hx
  rw [Ty.names_composite] at hx
  obtain ⟨m, hm, hx⟩ := List.mem_flatMap.mp hx
  obtain ⟨type, htype, v, hv, hf⟩ := h.entries c hc
  exact h.reach_bound (hnames type htype) (.member hv hf hm) x hx

/-- A table that holds what types need can be written. -/
theorem entries_return {registered : List Ty} (he : t.Exact registered) (hc : Copies env types t)
    (hnames : ∀ type ∈ types, ∀ x ∈ type.names, t.isBound x = true) :
    ∃ entries, t.entries.mapM t.toEntry = .ok entries := by
  obtain ⟨entries, hentries⟩ :=
    exists_forall₂ fun c hmem => toEntry_returns he hmem (hc.entry_bound hnames hmem)
  exact ⟨entries, except_mapM_eq_ok.mpr hentries⟩

/-- Entries that differ in more than names of fields are no more than those among which they are. -/
theorem Exact.size_le (he : t.Exact types) (h : t.entries ⊆ u.entries) : t.size ≤ u.size := by
  have hnodup : t.entries.Nodup := he.distinct.imp fun {c d} hne hcd => by
    rw [hcd, Ty.same_refl] at hne
    cases hne
  exact hnodup.length_le_of_subset h

end Didl.Table

namespace Didl.Message
open Table
variable {env : Table} {types : List Ty}

/-- There is a table for arguments of closed types, and it holds nothing twice. -/
theorem tableFor_returns (hs : env.Sound) (hc : ∀ type ∈ types, env.Closed type) :
    ∃ codes sub registered, tableFor env types = .ok (codes, sub) ∧ sub.Exact registered := by
  suffices hreturns : ∃ r, tableFor env types = .ok r ∧ ∃ registered, r.2.Exact registered by
    obtain ⟨⟨codes, sub⟩, hr, registered, hexact⟩ := hreturns
    exact ⟨codes, sub, registered, hr, hexact⟩
  unfold tableFor
  refine except_bind_returns (except_foldlM_returns
    (I := fun u => ∃ registered, u.Exact registered) types ?_ ⟨[], .empty⟩) ?_
  · intro type htype u hu
    obtain ⟨registered, hu⟩ := hu
    obtain ⟨u', hu'⟩ := copyLabels_closed hs (hc type htype) u
    have hrun := Call.run_exact hu (.copyLabels env type)
    simp only [Call.run, hu'] at hrun ⊢
    exact ⟨u', rfl, _, hrun⟩
  intro named hnamed hexact
  obtain ⟨_, _, hbound⟩ := copies_of_names (copies_empty env types) (fun _ hx => hx) hnamed
  refine except_bind_returns (except_foldlM_returns
    (I := fun r => (∃ registered, r.2.Exact registered) ∧ named.Extends r.2) types ?_
    ⟨hexact, .refl named⟩) fun r _ hr => ⟨_, rfl, hr.1⟩
  intro type htype r hr
  obtain ⟨⟨registered, hexact⟩, hext⟩ := hr
  obtain ⟨code, u, hreg⟩ := register_returns fun x (hx : type = .named x) =>
    hext.isBound (hbound _ htype x (hx ▸ List.mem_singleton_self x))
  have hrun := Call.run_exact hexact (.register type)
  simp only [Call.run, hreg] at hrun ⊢
  exact ⟨_, rfl, ⟨_, hrun⟩, hext.trans (register_eq_ok hreg).extended⟩

end Didl.Message
