import Mathlib
import Didl.Proofs.ReadTables

namespace Didl.Rebuilt
variable {raw : Array Entry} {s s' s₁ : Rebuilt} {path : List Nat} {start : Nat}

/-- The entries that a search has open, the one that was entered last in front: each is a member of
the one behind it, and none stands in front of the entry from which the search started. -/
inductive Descent (raw : Array Entry) (start : Nat) : List Nat → Prop
  | start : Descent raw start [start]
  | enter {i j : Nat} {path : List Nat} {e : Entry} : Descent raw start (i :: path) →
      raw[i]? = some e → (j : Int) ∈ e.members → j ∉ i :: path → start ≤ j →
      Descent raw start (j :: i :: path)

theorem Descent.nodup (h : Descent raw start path) : path.Nodup := by
  induction h with
  | start => exact List.nodup_singleton _
  | enter _ _ _ hnew _ ih => exact List.nodup_cons.mpr ⟨hnew, ih⟩

theorem Descent.start_le (h : Descent raw start path) : ∀ i ∈ path, start ≤ i := by
  induction h with
  | start => simp
  | enter _ _ _ _ hle ih => exact List.forall_mem_cons.mpr ⟨hle, ih⟩

/-- What was open when an entry was entered. -/
theorem Descent.around {deep : List Nat} {j : Nat} {up : List Nat}
    (h : Descent raw start (deep ++ j :: up)) : Descent raw start (j :: up) := by
  induction deep with
  | nil => exact h
  | cons i deep ih =>
    rw [List.cons_append] at h
    generalize hrest : deep ++ j :: up = rest at h
    cases h with
    | start => simp at hrest
    | enter h _ _ _ _ => exact ih (hrest ▸ h)

def Back (raw : Array Entry) (i j : Nat) : Prop :=
  ∃ start path, Descent raw start (i :: path) ∧ j ∈ i :: path

def Settled (raw : Array Entry) (s : Rebuilt) (i : Nat) (code : Int) (type : Ty) : Prop :=
  ∀ j : Nat, code = j → (∃ r, s.known j = some r) ∨ Back raw i j ∧ ∃ x, type = .named x

/-- A member of the entry `i`: it stands in front of it in the order, or it is a name and leads
back. -/
def Precedes (raw : Array Entry) (s : Rebuilt) (order : Nat → Nat) (i : Nat) (code : Int)
    (type : Ty) : Prop :=
  ∀ j : Nat, code = j →
    ((∃ r, s.known j = some r) ∧ order j < order i) ∨ Back raw i j ∧ ∃ x, type = .named x

def Finished (raw : Array Entry) (s : Rebuilt) (order : Nat → Nat) : Prop :=
  ∀ i c n, s.known i = some (c, n) → ∃ e, raw[i]? = some e ∧
    List.Forall₂ (Precedes raw s order i) e.members c.members

/-- What holds while the search that started from an entry is under way: all entries in front of it
were rebuilt, and those that were rebuilt have an order. -/
structure Underway (raw : Array Entry) (start : Nat) (s : Rebuilt) : Prop where
  faithful : Faithful raw s
  before : ∀ i < start, ∃ r, s.known i = some r
  finished : ∃ order, Finished raw s order

theorem Settled.grows {made : List Ty} {i : Nat} {code : Int} {type : Ty}
    (h : Settled raw s i code type) (hg : Grows path s made s') : Settled raw s' i code type :=
  fun j hj => (h j hj).imp_left fun ⟨r, hr⟩ => ⟨r, hg.known j r hr⟩

/-- An entry whose members are settled comes last in the order. -/
theorem finished_store {i : Nat} {e : Entry} {r : Composite Ty × Nat} {order : Nat → Nat}
    (hf : Faithful raw s) (h : Finished raw s order) (hnone : s.known i = none)
    (he : raw[i]? = some e) (hsettled : List.Forall₂ (Settled raw s i) e.members r.1.members) :
    ∃ order', Finished raw { s with done := s.done.setIfInBounds i (some r) } order' := by
  let last := (Finset.range raw.size).sup order + 1
  have hlast : ∀ j, (∃ q, s.known j = some q) → order j < last := fun j ⟨q, hq⟩ =>
    Nat.lt_succ_of_le (Finset.le_sup (f := order) (Finset.mem_range.mpr (hf.lt_size hq)))
  have hne : ∀ j, (∃ q, s.known j = some q) → j ≠ i := by
    rintro j ⟨q, hq⟩ rfl
    rw [hnone] at hq
    cases hq
  have hg : Grows [] s [] { s with done := s.done.setIfInBounds i (some r) } :=
    grows_store hnone List.not_mem_nil
  have hkept : ∀ j, (∃ q, s.known j = some q) →
      ∃ q, Rebuilt.known { s with done := s.done.setIfInBounds i (some r) } j = some q :=
    fun j ⟨q, hq⟩ => ⟨q, hg.known j q hq⟩
  refine ⟨Function.update order i last, fun j c n hj => ?_⟩
  by_cases hji : j = i
  · subst hji
    rw [known_store (hf.done_size ▸ (Array.getElem?_eq_some_iff.mp he).1)] at hj
    cases hj
    refine ⟨e, he, hsettled.imp fun code type hcode k hk => ?_⟩
    refine (hcode k hk).imp_left fun hknown => ⟨hkept k hknown, ?_⟩
    rw [Function.update_self, Function.update_of_ne (hne k hknown)]
    exact hlast k hknown
  · have hj' : s.known j = some (c, n) := by
      simpa only [Rebuilt.known, Array.getElem?_setIfInBounds, if_neg (Ne.symm hji)] using hj
    obtain ⟨e', he', hmembers⟩ := h j c n hj'
    refine ⟨e', he', hmembers.imp fun code type hcode k hk => ?_⟩
    refine (hcode k hk).imp_left fun hknown => ⟨hkept k hknown.1, ?_⟩
    rw [Function.update_of_ne (hne k hknown.1), Function.update_of_ne hji]
    exact hknown.2

def Finishes (raw : Array Entry) (start : Nat) (expand : List Nat → Nat → M (Composite Ty × Nat)) :
    Prop :=
  ∀ path index s r s', Underway raw start s → Open raw s path → index ∉ path →
    (s.known index = none → Descent raw start (index :: path)) →
    expand path index s = .ok (r, s') → Underway raw start s'

section Members
variable {expand : List Nat → Nat → M (Composite Ty × Nat)} {i : Nat} {e : Entry}

theorem member_finished {code : Int} {r : Ty × Nat} (hexpands : Expands raw expand)
    (hfinishes : Finishes raw start expand) (hu : Underway raw start s)
    (ho : Open raw s (i :: path)) (hd : Descent raw start (i :: path)) (he : raw[i]? = some e)
    (hcode : code ∈ e.members) (h : member expand (i :: path) code s = .ok (r, s')) :
    Underway raw start s' ∧ Settled raw s' i code r.1 := by
  obtain ⟨hf', hg, _⟩ := member_ok hexpands hu.faithful ho h
  -- A reference to an entry changes nothing that was rebuilt.
  have hrefer : ∀ {s : Rebuilt} {j : Nat} {r : Ty × Nat}, Underway raw start s →
      Faithful raw s' → refer j s = .ok (r, s') → Underway raw start s' ∧ r.1 = .named (entryLabel j) ∧
        ∀ k, s'.known k = s.known k := by
    intro s j r hu hf' h
    cases h
    exact ⟨⟨hf', hu.before, hu.finished⟩, rfl, fun _ => rfl⟩
  by_cases hneg : code < 0
  · cases hp : Prim.ofOpcode? code with
    | none =>
      rw [member, if_pos hneg, hp] at h
      cases h
    | some p =>
      rw [member, if_pos hneg, hp] at h
      cases h
      exact ⟨hu, fun j hj => by omega⟩
  · obtain ⟨j, rfl⟩ : ∃ j : Nat, code = j := ⟨code.toNat, by omega⟩
    rw [member, if_neg hneg] at h
    simp only [Int.toNat_natCast, List.contains_iff_mem] at h
    by_cases hj : j ∈ i :: path
    · rw [if_pos hj] at h
      obtain ⟨hu', hname, _⟩ := hrefer hu hf' h
      refine ⟨hu', fun k hk => .inr ?_⟩
      obtain rfl : j = k := by omega
      exact ⟨⟨start, path, hd, hj⟩, _, hname⟩
    · rw [if_neg hj] at h
      simp only [bind, StateT.bind, Except.bind] at h
      split at h
      · cases h
      · rename_i q hq
        obtain ⟨⟨c, n⟩, s₁⟩ := q
        have hdescent : s.known j = none → Descent raw start (j :: i :: path) := by
          intro hnone
          refine .enter hd he hcode hj (Nat.le_of_not_lt fun hlt => ?_)
          obtain ⟨r, hr⟩ := hu.before j hlt
          rw [hnone] at hr
          cases hr
        have hu₁ := hfinishes _ _ _ _ _ hu ho hj hdescent hq
        obtain ⟨_, _, hknown⟩ := hexpands _ _ _ _ _ hu.faithful ho hj hq
        have hsettled : ∀ k : Nat, (j : Int) = k → ∃ r, s₁.known k = some r := by
          intro k hk
          obtain rfl : j = k := by omega
          exact ⟨_, hknown⟩
        dsimp only at h
        split at h
        · obtain ⟨hu', _, hsame⟩ := hrefer hu₁ hf' h
          exact ⟨hu', fun k hk => .inl (by rw [hsame]; exact hsettled k hk)⟩
        · cases h
          exact ⟨hu₁, fun k hk => .inl (hsettled k hk)⟩

theorem members_finished {codes : List Int} {rs : List (Ty × Nat)} (hexpands : Expands raw expand)
    (hfinishes : Finishes raw start expand) (hu : Underway raw start s)
    (ho : Open raw s (i :: path)) (hd : Descent raw start (i :: path)) (he : raw[i]? = some e)
    (hcodes : codes ⊆ e.members) (h : Steps (member expand (i :: path)) s codes rs s') :
    Underway raw start s' ∧ List.Forall₂ (Settled raw s' i) codes (rs.map Prod.fst) := by
  induction h with
  | nil => exact ⟨hu, .nil⟩
  | cons hb hrest ih =>
    obtain ⟨hcode, hcodes⟩ := List.cons_subset.mp hcodes
    obtain ⟨hu₁, hs₁⟩ := member_finished hexpands hfinishes hu ho hd he hcode hb
    obtain ⟨hf₁, hg₁, _⟩ := member_ok hexpands hu.faithful ho hb
    obtain ⟨_, hg₂, _⟩ := members_ok hexpands hf₁ (ho.grows hg₁) hrest
    obtain ⟨hu₂, hs₂⟩ := ih hu₁ (ho.grows hg₁) hcodes
    exact ⟨hu₂, .cons (hs₁.grows hg₂) hs₂⟩

end Members

theorem finishes (raw : Array Entry) (start limit : Nat) : Finishes raw start (expand raw limit) := by
  induction limit with
  | zero =>
    intro path index s r s' hu _ _ _ h
    rcases expand_eq_ok h with ⟨_, rfl⟩ | ⟨_, _, _, _, hlimit, _⟩
    · exact hu
    · cases hlimit
  | succ limit ih =>
    intro path index s r s' hu ho hnew hd h
    have hresult := expands raw (limit + 1) path index s r s' hu.faithful ho hnew h
    rcases expand_eq_ok h with ⟨_, rfl⟩ | ⟨_, entry, rs, s₁, hlimit, hnone, hraw, hsteps, hr, rfl⟩
    · exact hu
    · cases hlimit
      have ho' : Open raw s (index :: path) :=
        List.forall_mem_cons.mpr ⟨⟨(Array.getElem?_eq_some_iff.mp hraw).1, hnone⟩, ho⟩
      obtain ⟨hu₁, hsettled⟩ := members_finished (expands raw limit) ih hu ho' (hd hnone) hraw
        (List.Subset.refl _) hsteps
      obtain ⟨_, hg₁, _⟩ := members_ok (expands raw limit) hu.faithful ho' hsteps
      have hmembers : r.1.members = rs.map Prod.fst := by
        rw [hr, Composite.members_map, Composite.refill_members hsteps.length_eq]
      obtain ⟨order, horder⟩ := hu₁.finished
      obtain ⟨hf', hg, _⟩ := hresult
      refine ⟨hf', fun i hi => (hu.before i hi).imp fun r hr => hg.known i r hr, ?_⟩
      exact finished_store hu₁.faithful horder (hg₁.path index List.mem_cons_self hnone) hraw
        (hmembers ▸ hsettled)

/-- Entries are rebuilt one after the other, each search starting when all in front were rebuilt. -/
theorem entries_finished {count : Nat} {rs : List (Composite Ty × Nat)} (hu : Underway raw start s)
    (h : Steps (expand raw maxDepth []) s (List.range' start count) rs s') :
    Underway raw (start + count) s' := by
  induction count generalizing start s rs with
  | zero =>
    cases h
    exact hu
  | succ count ih =>
    rw [List.range'_succ] at h
    cases h with
    | cons hb h =>
      have hu₁ := finishes raw start maxDepth _ _ _ _ _ hu (by simp [Open]) List.not_mem_nil
        (fun _ => .start) hb
      obtain ⟨_, _, hknown⟩ :=
        expands raw maxDepth _ _ _ _ _ hu.faithful (by simp [Open]) List.not_mem_nil hb
      have hnext := ih ⟨hu₁.faithful, fun i hi => ?_, hu₁.finished⟩ h
      · rwa [Nat.add_assoc, Nat.add_comm 1] at hnext
      · rcases Nat.lt_succ_iff_lt_or_eq.mp hi with hi | rfl
        · exact hu₁.before i hi
        · exact ⟨_, hknown⟩

theorem finished_empty (raw : Array Entry) : Finished raw (.empty raw.size) id := by
  intro i c n hi
  have hlt := (faithful_empty raw).lt_size hi
  simp [known, empty, hlt] at hi

end Didl.Rebuilt

namespace Didl.Table
open Rebuilt
variable {raw : Array Entry} {codes : List Int} {t : Table} {args : List Ty}

/-- What is rebuilt in the end has an order. -/
theorem rebuild_finished (h : rebuild raw codes = .ok (t, args)) :
    ∃ s order, Rebuilds raw codes s t args ∧ Finished raw s order := by
  obtain ⟨rs, ts, s₁, s, hrs, hts, rfl, rfl⟩ := rebuild_steps h
  have hstart : Underway raw 0 (.empty raw.size) :=
    ⟨faithful_empty raw, nofun, id, finished_empty raw⟩
  have hall := entries_finished hstart (List.range_eq_range' ▸ hrs)
  obtain ⟨hf, hg, _⟩ := members_ok (expands raw maxDepth) hall.faithful (by simp [Open]) hts
  obtain ⟨order, horder⟩ := hall.finished
  -- All entries were rebuilt, so that the arguments add none.
  have hsame : ∀ i r, s.known i = some r → s₁.known i = some r := by
    intro i r hi
    obtain ⟨r', hr'⟩ := hall.before i (by simpa using hf.lt_size hi)
    rw [hg.known i r' hr'] at hi
    rw [hr', hi]
  refine ⟨s, order, rebuilds_of_steps hrs hts, fun i c n hi => ?_⟩
  obtain ⟨e, he, hmembers⟩ := horder i c n (hsame i _ hi)
  refine ⟨e, he, hmembers.imp fun code type hcode j hj => ?_⟩
  exact (hcode j hj).imp_left fun h => ⟨h.1.imp fun r hr => hg.known j r hr, h.2⟩

end Didl.Table
