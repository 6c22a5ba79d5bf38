import Didl.Prelude.Basic
import Didl.Proofs.Registration
import Didl.Proofs.Traversal

namespace Didl

/-- A fault without the texts of types, in which names of fields may stand. -/
def Fault.kind : Fault → Fault
  | .mismatch _ found => .mismatch "" found
  | .badTable (.unregistered _) => .badTable (.unregistered "")
  | .badTable (.notAnEntry _) => .badTable (.notAnEntry "")
  | e => e

inductive Concur {α β : Type} (R : α → β → Prop) : Except Fault α → Except Fault β → Prop
  | ok {a : α} {b : β} : R a b → Concur R (.ok a) (.ok b)
  | error {e e' : Fault} : e.kind = e'.kind → Concur R (.error e) (.error e')

namespace Concur
variable {α β γ δ : Type} {R : α → β → Prop} {S : γ → δ → Prop} {x : Except Fault α}
  {y : Except Fault β}

theorem refl (x : Except Fault α) : Concur Eq x x := by
  cases x with
  | ok a => exact .ok rfl
  | error e => exact .error rfl

theorem bind {f : α → Except Fault γ} {g : β → Except Fault δ} (h : Concur R x y)
    (k : ∀ a b, R a b → Concur S (f a) (g b)) : Concur S (x >>= f) (y >>= g) := by
  cases h with
  | ok hr => exact k _ _ hr
  | error he => exact .error he

theorem mapError_eq {x y : Except Fault α} (h : Concur Eq x y) :
    x.mapError Fault.kind = y.mapError Fault.kind := by
  cases h with
  | ok hr => rw [hr]
  | error he => exact congrArg Except.error he

theorem mapM {f : α → Except Fault γ} {g : β → Except Fault δ} {as : List α} {bs : List β}
    (h : List.Forall₂ R as bs) (k : ∀ a b, R a b → Concur S (f a) (g b)) :
    Concur (List.Forall₂ S) (as.mapM f) (bs.mapM g) := by
  induction h with
  | nil => exact .ok .nil
  | cons hr _ ih =>
    rw [List.mapM_cons, List.mapM_cons]
    exact (k _ _ hr).bind fun _ _ hfirst => ih.bind fun _ _ hrest => .ok (.cons hfirst hrest)

theorem foldlM {f : γ → α → Except Fault γ} {g : δ → β → Except Fault δ} {as : List α}
    {bs : List β} {c : γ} {d : δ} (h : List.Forall₂ R as bs) (hcd : S c d)
    (k : ∀ c d a b, S c d → R a b → Concur S (f c a) (g d b)) :
    Concur S (as.foldlM f c) (bs.foldlM g d) := by
  induction h generalizing c d with
  | nil => exact .ok hcd
  | cons hr _ ih =>
    rw [List.foldlM_cons, List.foldlM_cons]
    exact (k _ _ _ _ hcd hr).bind fun _ _ hstep => ih hstep

theorem forM {f g : α → Except Fault Unit} {as : List α} (h : ∀ a, Concur Eq (f a) (g a)) :
    Concur Eq (as.forM f) (as.forM g) := by
  induction as with
  | nil => exact .ok rfl
  | cons a as ih => exact (h a).bind fun _ _ _ => ih

end Concur

/-- A composite's image concurs where those of its members do. -/
theorem Composite.mapM_concur {α β γ δ : Type} [Inhabited γ] [Inhabited δ] {R : α → β → Prop}
    {S : γ → δ → Prop} {f : α → Except Fault γ} {g : β → Except Fault δ} {c : Composite α}
    {d : Composite β} (h : c.Rel R d) (k : ∀ a b, R a b → Concur S (f a) (g b)) :
    Concur (Composite.Rel S) (c.mapM f) (d.mapM g) := by
  rw [mapM_eq, mapM_eq]
  have hmembers := Concur.mapM h.members k
  generalize hf : c.members.mapM f = x at hmembers
  generalize hg : d.members.mapM g = y at hmembers
  cases hmembers with
  | error he => exact .error he
  | ok hcs =>
    have hc := (Didl.except_mapM_eq_ok.mp hf).length_eq
    have hd := (Didl.except_mapM_eq_ok.mp hg).length_eq
    refine .ok (rel_iff.mpr ⟨?_, ?_⟩)
    · rw [refill_shape hc, refill_shape hd, h.shape_eq]
    · rwa [refill_members hc, refill_members hd]

theorem Entry.bytes_of_rel {c d : Entry} (h : c.Rel Eq d) : c.bytes = d.bytes := by
  have hfields : ∀ {xs ys : List (Field Int)}, List.Forall₂ (Field.Rel Eq) xs ys →
      listBytes fieldBytes xs = listBytes fieldBytes ys := by
    intro xs ys hxs
    have hbytes : xs.map fieldBytes = ys.map fieldBytes := by
      rw [← List.forall₂_eq_eq_eq, List.forall₂_map_left_iff, List.forall₂_map_right_iff]
      exact hxs.imp fun x y ⟨hid, htype⟩ => by rw [fieldBytes, fieldBytes, hid, htype]
    rw [listBytes, listBytes, hxs.length_eq, List.flatMap_def, List.flatMap_def, hbytes]
  have hmethods : ∀ {xs ys : List (Method Int)}, List.Forall₂ (Method.Rel Eq) xs ys →
      listBytes methodBytes xs = listBytes methodBytes ys := by
    intro xs ys hxs
    have hbytes : xs.map methodBytes = ys.map methodBytes := by
      rw [← List.forall₂_eq_eq_eq, List.forall₂_map_left_iff, List.forall₂_map_right_iff]
      exact hxs.imp fun x y ⟨hname, htype⟩ => by rw [methodBytes, methodBytes, hname, htype]
    rw [listBytes, listBytes, hxs.length_eq, List.flatMap_def, List.flatMap_def, hbytes]
  cases h with
  | opt h => rw [h]
  | vec h => rw [h]
  | record h => rw [bytes, bytes, hfields h]
  | variant h => rw [bytes, bytes, hfields h]
  | func modes hargs hresults =>
    rw [List.forall₂_eq_eq_eq] at hargs hresults
    rw [hargs, hresults]
  | service h => rw [bytes, bytes, hmethods h]
  | future => rfl

namespace Ty

theorem parts_forall₂ {a b : Ty} (h : a.same b = true) :
    List.Forall₂ (fun c d => (composite c).same (composite d) = true) a.parts b.parts := by
  induction a using induct generalizing b with
  | prim p => cases b <;> simp_all [same, parts, fold]
  | named x => cases b <;> simp_all [same, parts, fold]
  | composite c ih =>
    cases b with
    | prim | named => simp [same] at h
    | composite d =>
      have hmembers := ((same_composite.mp h).and_left ih).members
      rw [parts_composite, parts_composite]
      exact .cons h (List.rel_flatMap hmembers fun _ _ hmember => hmember.1 hmember.2)

end Ty

/-- Two tables that bind the same names to the same codes and whose entries differ at most in names
of fields. -/
structure Table.Resembles (t u : Table) : Prop where
  entries : List.Forall₂ (fun c d => (Ty.composite c).same (.composite d) = true)
    t.entries u.entries
  labels : t.labels = u.labels

namespace Table.Resembles
variable {t u : Table} {a b : Ty} {c d : Composite Ty}

theorem indexOf? (h : t.Resembles u) (hcd : (Ty.composite c).same (.composite d) = true) :
    t.indexOf? c = u.indexOf? d := by
  rw [indexOf?_congr hcd, Table.indexOf?, Table.indexOf?]
  have hfind : ∀ {es fs : List (Composite Ty)},
      List.Forall₂ (fun e f => (Ty.composite e).same (.composite f) = true) es fs →
      es.findIdx? (fun e => (Ty.composite e).same (.composite d)) =
        fs.findIdx? fun f => (Ty.composite f).same (.composite d) := by
    intro es fs hes
    induction hes with
    | nil => rfl
    | @cons e f _ _ hef _ ih =>
      have heq : (Ty.composite e).same (.composite d) = (Ty.composite f).same (.composite d) :=
        Bool.eq_iff_iff.mpr ⟨Ty.same_trans (Ty.same_symm hef), Ty.same_trans hef⟩
      rw [List.findIdx?_cons, List.findIdx?_cons, heq, ih]
  exact hfind h.entries

theorem add (h : t.Resembles u) (hcd : (Ty.composite c).same (.composite d) = true) :
    (t.add c).Resembles (u.add d) := by
  unfold Table.add
  rw [h.indexOf? hcd]
  split
  · exact h
  · exact ⟨List.rel_append h.entries (.cons hcd .nil), h.labels⟩

theorem addAll {cs ds : List (Composite Ty)} (h : t.Resembles u)
    (hcs : List.Forall₂ (fun c d => (Ty.composite c).same (.composite d) = true) cs ds) :
    (cs.foldl Table.add t).Resembles (ds.foldl Table.add u) := by
  induction hcs generalizing t u with
  | nil => exact h
  | cons hcd _ ih => exact ih (h.add hcd)

theorem codeOf (h : t.Resembles u) (hab : a.same b = true) :
    Concur Eq (t.codeOf a) (u.codeOf b) := by
  cases a with
  | prim p =>
    cases b <;> simp only [Ty.same, beq_iff_eq, Bool.false_eq_true] at hab
    exact hab ▸ .refl _
  | named x =>
    cases b <;> simp only [Ty.same, beq_iff_eq, Bool.false_eq_true] at hab
    rw [← hab, Table.codeOf, Table.codeOf, labelCode?, labelCode?, h.labels]
    exact .refl _
  | composite c =>
    cases b with
    | prim | named => simp [Ty.same] at hab
    | composite d =>
      rw [Table.codeOf, Table.codeOf, h.indexOf? hab]
      split
      · exact .ok rfl
      · exact .error rfl

theorem register (h : t.Resembles u) (hab : a.same b = true) :
    Concur (fun r s => r.1 = s.1 ∧ r.2.Resembles s.2) (t.register a) (u.register b) := by
  have hadded := h.addAll (Ty.parts_forall₂ hab)
  have hcode := hadded.codeOf hab
  unfold Table.register
  dsimp only
  generalize (a.parts.foldl Table.add t).codeOf a = x at hcode
  generalize (b.parts.foldl Table.add u).codeOf b = y at hcode
  cases hcode with
  | ok heq => exact .ok ⟨heq, hadded⟩
  | error he => exact .error he

theorem registerLabel (h : t.Resembles u) (name : String) (hab : a.same b = true) :
    Concur (fun r s => r.1 = s.1 ∧ r.2.Resembles s.2) (t.registerLabel name a)
      (u.registerLabel name b) := by
  have hregister := h.register hab
  unfold Table.registerLabel
  rw [labelCode?, labelCode?, h.labels]
  split
  · exact .ok ⟨rfl, h⟩
  · generalize t.register a = x at hregister
    generalize u.register b = y at hregister
    cases hregister with
    | @ok r s hrs =>
      obtain ⟨heq, hlike⟩ := hrs
      exact .ok ⟨heq, hlike.entries, by rw [hlike.labels, heq]⟩
    | error he => exact .error he

theorem typeOfCode (h : t.Resembles u) (code : Int) :
    Concur (fun x y => x.type.same y.type = true) (t.typeOfCode code) (u.typeOfCode code) := by
  unfold Table.typeOfCode
  split
  · split
    · exact .ok (Ty.same_refl _)
    · exact .error rfl
  · have hentry := forall₂_getElem? h.entries code.toNat
    generalize t.entries[code.toNat]? = x at hentry
    generalize u.entries[code.toNat]? = y at hentry
    cases hentry with
    | some hcd => exact .ok hcd
    | none => exact .error rfl

theorem follow (h : t.Resembles u) (hab : a.same b = true) :
    Concur (fun x y => x.type.same y.type = true) (t.follow a) (u.follow b) := by
  cases a with
  | prim p =>
    cases b <;> simp only [Ty.same, beq_iff_eq, Bool.false_eq_true] at hab
    exact .ok (hab ▸ Ty.same_refl _)
  | named x =>
    cases b <;> simp only [Ty.same, beq_iff_eq, Bool.false_eq_true] at hab
    rw [← hab, Table.follow, Table.follow, resolve, resolve, labelCode?, labelCode?, h.labels]
    split
    · exact h.typeOfCode _
    · exact .error rfl
  | composite c =>
    cases b with
    | prim | named => simp [Ty.same] at hab
    | composite d => exact .ok hab

theorem preludeBytes (h : t.Resembles u) (codes : List Int) :
    Concur Eq (t.preludeBytes codes) (u.preludeBytes codes) := by
  have hentries : Concur (List.Forall₂ (Composite.Rel Eq)) (t.entries.mapM t.toEntry)
      (u.entries.mapM u.toEntry) :=
    .mapM h.entries fun c d hcd =>
      Composite.mapM_concur (Ty.same_composite.mp hcd).canonical fun _ _ hab => h.codeOf hab
  refine hentries.bind fun cs ds hcs => ?_
  have hbytes : cs.map Entry.bytes = ds.map Entry.bytes := by
    rw [← List.forall₂_eq_eq_eq, List.forall₂_map_left_iff, List.forall₂_map_right_iff]
    exact hcs.imp fun _ _ => Entry.bytes_of_rel
  rw [Entry.listBytes, Entry.listBytes, hcs.length_eq, List.flatMap_def, List.flatMap_def, hbytes]
  exact .refl _

end Table.Resembles

end Didl
