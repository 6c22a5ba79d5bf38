import Didl.Proofs.Copying
import Didl.Proofs.WriteAlike

namespace Didl

namespace Table
variable {t u : Table} {N : String → Prop}

/-- Two tables bind some names to the same types, up to names of fields, and these types mention no
other names. -/
def AgreesOn (N : String → Prop) (t u : Table) : Prop :=
  ∀ x, N x → ∃ head head', t.resolve x = .ok head ∧ u.resolve x = .ok head' ∧
    head.type.Same head'.type ∧ ∀ y ∈ head.type.names, N y

def SameBinding (p q : String × Head) : Prop := p.1 = q.1 ∧ p.2.type.Same q.2.type

theorem any_forget (name : String) (bindings : List (String × Int)) (x : String) :
    (forget name bindings).any (·.1 == x) = (bindings.any (·.1 == x) && x != name) := by
  rw [Bool.eq_iff_iff]
  simp only [forget, List.any_eq_true, List.mem_filter, Bool.and_eq_true, beq_iff_eq, bne_iff_ne]
  constructor
  · rintro ⟨p, ⟨hp, hne⟩, rfl⟩
    exact ⟨⟨p, hp, rfl⟩, hne⟩
  · rintro ⟨⟨p, hp, rfl⟩, hne⟩
    exact ⟨p, ⟨hp, hne⟩, rfl⟩

theorem resolve_eq_ok {x : String} {head : Head} : t.resolve x = .ok head ↔
    ∃ code, t.labelCode? x = some code ∧ t.typeOfCode code = .ok head := by
  unfold resolve
  cases t.labelCode? x with
  | none => simp
  | some code => simp

theorem any_labels (t : Table) (x : String) : t.labels.any (·.1 == x) = t.isBound x := by
  rw [isBound, labelCode?]
  induction t.labels with
  | nil => rfl
  | cons p labels ih =>
    rw [List.any_cons, ih, List.lookup_cons, Bool.beq_comm]
    cases x == p.1 <;> rfl

/-- The search for names meets the same ones with the same types, however the bindings stand. -/
theorem AgreesOn.visit (h : AgreesOn N t u) {fresh fresh' : List (String × Int)}
    {pending : List String} (hpending : ∀ x ∈ pending, N x)
    (hfresh : ∀ x, N x → fresh.any (·.1 == x) = fresh'.any (·.1 == x)) :
    ∃ found found', visit t fresh pending = (found, none) ∧
      visit u fresh' pending = (found', none) ∧ List.Forall₂ SameBinding found found' := by
  fun_induction Table.visit t fresh pending generalizing fresh' with
  | case1 fresh =>
    refine ⟨[], [], rfl, ?_, .nil⟩
    rw [Table.visit]
  | case2 fresh name rest hnone =>
    obtain ⟨_, _, hhead, _⟩ := h name (hpending name List.mem_cons_self)
    obtain ⟨code, hcode, _⟩ := resolve_eq_ok.mp hhead
    rw [hnone] at hcode
    cases hcode
  | case3 fresh name rest code hcode hany e herror =>
    obtain ⟨_, _, hhead, _⟩ := h name (hpending name List.mem_cons_self)
    obtain ⟨code', hcode', hhead⟩ := resolve_eq_ok.mp hhead
    rw [hcode] at hcode'
    cases hcode'
    rw [herror] at hhead
    cases hhead
  | case4 fresh name rest code hcode hany head hhead found fault hvisit ih =>
    have hname := hpending name List.mem_cons_self
    obtain ⟨head₁, head', hhead₁, hhead', hsame, hnames⟩ := h name hname
    obtain rfl : head = head₁ :=
      Except.ok.inj ((resolve_eq_ok.mpr ⟨code, hcode, hhead⟩).symm.trans hhead₁)
    obtain ⟨code', hcode', hhead'⟩ := resolve_eq_ok.mp hhead'
    have hrest : ∀ x ∈ head.type.names.reverse ++ rest, N x := List.forall_mem_append.mpr
      ⟨fun x hx => hnames x (List.mem_reverse.mp hx), fun x hx =>
        hpending x (List.mem_cons_of_mem _ hx)⟩
    obtain ⟨found₁, found', hfound₁, hfound', hall⟩ := @ih (forget name fresh') hrest
      fun x hx => by rw [any_forget, any_forget, hfresh x hx]
    rw [hvisit] at hfound₁
    cases hfound₁
    refine ⟨_, (name, head') :: found', rfl, ?_, .cons ⟨rfl, hsame⟩ hall⟩
    rw [Ty.names_of_same hsame] at hfound'
    rw [Table.visit, hcode']
    simp only [← hfresh name hname, hany, hhead', hfound', dite_true]
  | case5 fresh name rest code hcode hany ih =>
    have hname := hpending name List.mem_cons_self
    obtain ⟨_, _, _, hhead', _⟩ := h name hname
    obtain ⟨code', hcode', _⟩ := resolve_eq_ok.mp hhead'
    obtain ⟨found, found', hfound, hfound', hall⟩ :=
      ih (fun x hx => hpending x (List.mem_cons_of_mem _ hx)) hfresh
    refine ⟨found, found', hfound, ?_, hall⟩
    rw [Table.visit, hcode']
    dsimp only
    rwa [dif_neg (by rwa [← hfresh name hname])]

theorem AgreesOn.dependencies (h : AgreesOn N t u) {type : Ty} (htype : ∀ x ∈ type.names, N x) :
    ∃ found found', t.dependencies type = (found, none) ∧ u.dependencies type = (found', none) ∧
      List.Forall₂ SameBinding found found' := by
  refine h.visit (fun x hx => htype x (List.mem_reverse.mp hx)) fun x hx => ?_
  obtain ⟨_, _, hhead, hhead', _⟩ := h x hx
  obtain ⟨code, hcode, _⟩ := resolve_eq_ok.mp hhead
  obtain ⟨code', hcode', _⟩ := resolve_eq_ok.mp hhead'
  rw [any_labels, any_labels, isBound, isBound, hcode, hcode']
  rfl

theorem Resembles.bind (h : t.Resembles u) {p q : String × Head} (hpq : SameBinding p q) :
    (copyLabels.bind t p).Resembles (copyLabels.bind u q) := by
  obtain ⟨name, head⟩ := p
  obtain ⟨_, head'⟩ := q
  obtain ⟨rfl, hsame⟩ := hpq
  have hreg := h.registerLabel name hsame
  unfold copyLabels.bind
  dsimp only
  generalize t.registerLabel name head.type = x at hreg
  generalize u.registerLabel name head'.type = y at hreg
  cases hreg with
  | ok hrs => exact hrs.2
  | error => exact h

theorem Resembles.bindAll (h : t.Resembles u) {found found' : List (String × Head)}
    (hfound : List.Forall₂ SameBinding found found') :
    (found.foldl copyLabels.bind t).Resembles (found'.foldl copyLabels.bind u) := by
  induction hfound generalizing t u with
  | nil => exact h
  | cons hpq _ ih => exact ih (h.bind hpq)

theorem AgreesOn.copyLabels (h : AgreesOn N t u) {type : Ty} (htype : ∀ x ∈ type.names, N x)
    {into into' : Table} (hinto : into.Resembles into') :
    ∃ v v', t.copyLabels type into = (none, v) ∧ u.copyLabels type into' = (none, v') ∧
      v.Resembles v' := by
  obtain ⟨found, found', hfound, hfound', hall⟩ := h.dependencies htype
  exact ⟨_, _, by rw [Table.copyLabels, hfound], by rw [Table.copyLabels, hfound'],
    hinto.bindAll hall⟩

end Table

namespace Message
open Table
variable {t u : Table} {N : String → Prop} {types : List Ty}

/-- The table and the codes for types are the same for tables that agree on the names in them. -/
theorem tableFor_concur (h : AgreesOn N t u) (htypes : ∀ type ∈ types, ∀ x ∈ type.names, N x) :
    Concur (fun r s => r.1 = s.1 ∧ r.2.Resembles s.2) (tableFor t types) (tableFor u types) := by
  have hself : List.Forall₂ (fun a b => a = b ∧ ∀ x ∈ a.names, N x) types types :=
    List.forall₂_same.mpr fun type htype => ⟨rfl, htypes type htype⟩
  refine .bind (R := Table.Resembles) (.foldlM hself ⟨.nil, rfl⟩ ?_) fun v v' hv => ?_
  · rintro v v' type _ hv ⟨rfl, hnames⟩
    obtain ⟨w, w', hw, hw', hlike⟩ := h.copyLabels hnames hv
    rw [hw, hw']
    exact .ok hlike
  · refine .bind (.foldlM (S := fun r s => r.1 = s.1 ∧ r.2.Resembles s.2) hself ⟨rfl, hv⟩ ?_)
      fun r s ⟨hcodes, hlike⟩ => .ok ⟨congrArg List.reverse hcodes, hlike⟩
    rintro ⟨codes, v⟩ ⟨_, v'⟩ type _ ⟨rfl, hv⟩ ⟨rfl, _⟩
    exact (hv.register (Ty.same_refl type)).bind fun r s ⟨hcode, hlike⟩ => .ok ⟨by rw [hcode], hlike⟩

theorem writeAll_concur (h : t.Resembles u) (args : List (Ty × Value)) :
    (writeAll t args).Concur (writeAll u args) := by
  induction args with
  | nil => exact .refl _
  | cons p args ih =>
    exact (Value.isWalk_write.concur h.showAlike p.2 (Ty.same_refl p.1)).bind fun _ => ih

/-- Tables that agree on the names in some types encode values as these types alike. -/
theorem encode_concur (h : AgreesOn N t u) (htypes : ∀ type ∈ types, ∀ x ∈ type.names, N x)
    (values : List Value) : Concur Eq (encode t types values) (encode u types values) := by
  unfold encode
  split
  · exact .error rfl
  · refine (tableFor_concur h htypes).bind fun ⟨codes, v⟩ ⟨_, v'⟩ ⟨hcodes, hlike⟩ => ?_
    obtain rfl := hcodes
    refine (hlike.preludeBytes codes).bind fun prelude _ hprelude => ?_
    obtain rfl := hprelude
    have hsize : ∀ p : Ty × Value, Concur Eq (do let _ ← p.2.size v p.1) (do let _ ← p.2.size v' p.1) :=
      fun p => (Value.size_concur hlike.showAlike p.2 (Ty.same_refl p.1)).bind fun _ _ _ => .ok rfl
    refine (Concur.forM hsize).bind fun _ _ _ => ?_
    obtain ⟨_, bytes, hx, hy⟩ | ⟨e, e', bytes, hx, hy, he⟩ :=
      (writeAll_concur hlike (types.zip values)).run prelude.toArray
    · rw [hx, hy]
      exact .ok rfl
    · rw [hx, hy]
      exact .error he

end Message

end Didl
