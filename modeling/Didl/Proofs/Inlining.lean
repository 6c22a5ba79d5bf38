import Didl.Proofs.ReadTables
import Didl.Proofs.Streaming

namespace Didl

namespace Reader
variable {α β : Type} {x : Reader α} {f : α → Reader β} {u : α → Nat} {w : β → Nat} {k n : Nat}

/-- Whether what a reader yields weighs no more than a credit and the bytes that it takes. -/
def Weighs (credit : Nat) (weight : α → Nat) (x : Reader α) : Prop :=
  ∀ ⦃bytes rest : List UInt8⦄ ⦃a : α⦄, x bytes = (.ok a, rest) →
    rest.length + weight a ≤ bytes.length + credit

namespace Weighs

theorem of_streams (h : Streams n x) (k : Nat) : Weighs k (fun _ => n + k) x := by
  intro bytes rest a hx
  have htaken := h.taken hx
  dsimp only
  omega

theorem pure {b : β} (h : w b ≤ k) : Weighs k w (Pure.pure b) := by
  intro bytes rest a hx
  cases hx
  omega

theorem fail (e : Fault) : Weighs k w (Step.fail e) := nofun

/-- What the first reader yields is the credit of the second one. -/
theorem bind (hx : Weighs k u x) (hf : ∀ a, Weighs (u a) w (f a)) : Weighs k w (x >>= f) := by
  intro bytes rest b h
  obtain ⟨a, mid, hmid, h⟩ := Step.bind_eq_ok.mp h
  exact Nat.le_trans (hf a h) (hx hmid)

theorem map {g : α → β} (hx : Weighs k u x) (h : ∀ a, w (g a) ≤ u a) :
    Weighs k w (x >>= fun a => Pure.pure (g a)) :=
  hx.bind fun a => pure (h a)

/-- A byte for one more item of a list. -/
theorem item {next : List β → Reader (List β)} (hx : Streams 1 x)
    (hnext : ∀ done, Weighs (done.length + k) (fun bs => bs.length + k) (next done)) (g : α → β)
    (done : List β) : Weighs (done.length + k) (fun bs => bs.length + k)
      (x >>= fun a => next (g a :: done)) := by
  refine (of_streams hx _).bind fun a => ?_
  have hrest := hnext (g a :: done)
  rwa [List.length_cons, Nat.add_comm done.length, Nat.add_assoc] at hrest

/-- As many bytes as items, at least. -/
theorem times (hx : Streams 1 x) (count k : Nat) :
    Weighs k (fun as => as.length + k) (Step.times count x) := by
  have hcollect : ∀ (count : Nat) (done : List α),
      Weighs (done.length + k) (fun as => as.length + k) (Step.collect x count done) := by
    intro count
    induction count with
    | zero => exact fun done => pure (by simp)
    | succ count ih =>
      intro done
      rw [Step.collect_succ]
      exact item hx ih id done
  have hstart := hcollect count []
  rwa [List.length_nil, Nat.zero_add] at hstart

end Weighs
end Reader

namespace Entry
open Reader (Weighs)

theorem weighs_readCodes (k : Nat) : Weighs k (fun codes => codes.length + (1 + k)) readCodes :=
  (Weighs.of_streams Reader.streams_length k).bind fun count => .times streams_readCode count _

theorem weighs_readAscending {κ α : Type} [LE κ] [DecidableLE κ] {readKey : Reader κ}
    (hkey : Reader.Streams 0 readKey) (item : κ → Int → α) (key : α → κ) (fault : κ → TableFault)
    (count k : Nat) (done : List α) :
    Weighs (done.length + k) (fun xs => xs.length + k)
      (readAscending readKey item key fault count done) := by
  induction count generalizing done with
  | zero => exact .pure (by simp)
  | succ count ih =>
    refine (Weighs.of_streams hkey _).bind fun x => ?_
    rw [Nat.zero_add]
    cases done with
    | nil => exact .item streams_readCode ih (item x) _
    | cons last done =>
      dsimp only
      split
      · exact .fail _
      · exact .item streams_readCode ih (item x) _

theorem weighs_readFields (k : Nat) : Weighs k (fun fs => fs.length + (1 + k)) readFields :=
  (Weighs.of_streams Reader.streams_length k).bind fun count => by
    rw [readFieldsAfter_eq]
    simpa using weighs_readAscending streams_readFieldId _ _ _ count (1 + k) []

theorem weighs_readMethods (k : Nat) : Weighs k (fun ms => ms.length + (1 + k)) readMethods :=
  (Weighs.of_streams Reader.streams_length k).bind fun count => by
    rw [readMethodsAfter_eq]
    simpa using weighs_readAscending Reader.streams_text.any _ _ _ count (1 + k) []

/-- An entry takes a byte for its opcode and one for each member. -/
theorem weighs_read : Weighs 0 (fun e => e.members.length + 1) read := by
  refine (Weighs.of_streams Reader.streams_varInt64 0).bind fun opcode => ?_
  dsimp only
  split_ifs
  · exact (Weighs.of_streams streams_readCode _).map fun code => by simp [Composite.members]
  · exact (Weighs.of_streams streams_readCode _).map fun code => by simp [Composite.members]
  · exact (weighs_readFields _).map fun fs => by simp [Composite.members]
  · exact (weighs_readFields _).map fun fs => by simp [Composite.members]
  · refine (weighs_readCodes _).bind fun args => (weighs_readCodes _).bind fun results => ?_
    refine (Weighs.of_streams Reader.streams_length.any _).bind fun count => ?_
    refine (Weighs.of_streams (streams_readMode.times count) _).map fun modes => ?_
    simp [Composite.members]
    omega
  · exact (weighs_readMethods _).map fun ms => by simp [Composite.members]
  · exact .fail _
  · exact (Weighs.of_streams Reader.streams_blob.any _).map fun payload => by simp [Composite.members]

end Entry

namespace Rebuilt
variable {raw : Array Entry} {s s' : Rebuilt} {path : List Nat}

def Small (type : Ty) : Prop := type.size ≤ maxInlined

/-- The counts of types are right, and all that was copied into an entry is small. -/
def Counted (s : Rebuilt) : Prop :=
  ∀ i c n, s.known i = some (c, n) → (Ty.composite c).size = n ∧ ∀ m ∈ c.members, Small m

theorem counted_empty (count : Nat) : Counted (.empty count) := by
  intro i c n hi
  simp only [known, empty, Array.getElem?_replicate] at hi
  split at hi <;> cases hi

theorem known_of_store {i j : Nat} {r q : Composite Ty × Nat}
    (h : Rebuilt.known { s with done := s.done.setIfInBounds i (some r) } j = some q) :
    s.known j = some q ∨ r = q := by
  simp only [known, Array.getElem?_setIfInBounds] at h
  split_ifs at h
  · exact .inr (Option.some.inj h)
  · cases h
  · exact .inl h

section Members
variable {expand : List Nat → Nat → M (Composite Ty × Nat)}

def Counts (expand : List Nat → Nat → M (Composite Ty × Nat)) : Prop :=
  ∀ path index s r s', Counted s → expand path index s = .ok (r, s') →
    Counted s' ∧ (Ty.composite r.1).size = r.2 ∧ ∀ m ∈ r.1.members, Small m

/-- A member comes with its count, and it is small, as an entry that is not is referred to by name. -/
theorem member_counted {code : Int} {r : Ty × Nat} (he : Counts expand) (hs : Counted s)
    (h : member expand path code s = .ok (r, s')) : Counted s' ∧ r.1.size = r.2 ∧ Small r.1 := by
  have one_le : 1 ≤ maxInlined := by decide
  have hrefer : ∀ {i : Nat} {s : Rebuilt}, Counted s → refer i s = .ok (r, s') →
      Counted s' ∧ r.1.size = r.2 ∧ Small r.1 := by
    intro i s hs h
    cases h
    exact ⟨hs, rfl, one_le⟩
  by_cases hneg : code < 0
  · cases hp : Prim.ofOpcode? code with
    | none =>
      rw [member, if_pos hneg, hp] at h
      cases h
    | some p =>
      rw [member, if_pos hneg, hp] at h
      cases h
      exact ⟨hs, rfl, one_le⟩
  · rw [member, if_neg hneg] at h
    split at h
    · exact hrefer hs h
    · simp only [bind, StateT.bind, Except.bind] at h
      split at h
      · cases h
      · rename_i q hq
        obtain ⟨hs₁, hsize, _⟩ := he _ _ _ _ _ hs hq
        split at h
        · exact hrefer hs₁ h
        · rename_i hfew
          have hsmall : (Ty.composite q.1.1).size ≤ maxInlined := by
            rw [hsize]
            exact Nat.not_lt.mp hfew
          cases h
          exact ⟨hs₁, hsize, hsmall⟩

theorem members_counted {codes : List Int} {rs : List (Ty × Nat)} (he : Counts expand)
    (hs : Counted s) (h : Steps (member expand path) s codes rs s') :
    Counted s' ∧ ∀ r ∈ rs, r.1.size = r.2 ∧ Small r.1 := by
  induction h with
  | nil => exact ⟨hs, nofun⟩
  | cons hb _ ih =>
    obtain ⟨hs₁, hr⟩ := member_counted he hs hb
    obtain ⟨hs₂, hrs⟩ := ih hs₁
    exact ⟨hs₂, List.forall_mem_cons.mpr ⟨hr, hrs⟩⟩

end Members

/-- One more than the types that members hold. -/
theorem foldl_counts (rs : List (Ty × Nat)) (h : ∀ r ∈ rs, r.1.size = r.2) (n : Nat) :
    rs.foldl (fun n r => n + r.2) n = ((rs.map Prod.fst).map Ty.size).sum + n := by
  induction rs generalizing n with
  | nil => simp
  | cons r rs ih =>
    obtain ⟨hr, hrs⟩ := List.forall_mem_cons.mp h
    rw [List.foldl_cons, ih hrs, List.map_cons, List.map_cons, List.sum_cons, hr]
    omega

theorem counts_expand (raw : Array Entry) (limit : Nat) : Counts (expand raw limit) := by
  induction limit with
  | zero =>
    intro path index s r s' hs h
    rcases expand_steps h with ⟨hknown, rfl⟩ | ⟨_, _, _, _, hlimit, _⟩
    · exact ⟨hs, hs index r.1 r.2 hknown⟩
    · cases hlimit
  | succ limit ih =>
    intro path index s r s' hs h
    rcases expand_steps h with ⟨hknown, rfl⟩ | ⟨_, entry, rs, s₁, hlimit, _, _, hsteps, hr, rfl⟩
    · exact ⟨hs, hs index r.1 r.2 hknown⟩
    · cases hlimit
      obtain ⟨hs₁, hrs⟩ := members_counted ih hs hsteps
      have hmembers : r.1.members = rs.map Prod.fst := by
        rw [hr, Composite.members_map, Composite.refill_members hsteps.length_eq]
      have hsize : (Ty.composite r.1).size = r.2 := by
        rw [Ty.size_composite, hmembers, hr, Composite.refill_members hsteps.length_eq,
          foldl_counts rs fun r hr => (hrs r hr).1]
      have hsmall : ∀ m ∈ r.1.members, Small m := by
        rw [hmembers]
        exact List.forall_mem_map.mpr fun r hr => (hrs r hr).2
      refine ⟨fun j c n hj => ?_, hsize, hsmall⟩
      rcases known_of_store hj with hj | rfl
      · exact hs₁ j c n hj
      · exact ⟨hsize, hsmall⟩

end Rebuilt

namespace Table
open Rebuilt
variable {raw : Array Entry} {codes : List Int} {t : Table} {args : List Ty}

/-- All that was copied into an entry or into the place of an argument is small. -/
theorem rebuild_small (h : rebuild raw codes = .ok (t, args)) :
    (∀ c ∈ t.entries, ∀ m ∈ c.members, Small m) ∧ ∀ type ∈ args, Small type := by
  obtain ⟨rs, ts, s₁, s, hrs, hts, rfl, rfl⟩ := rebuild_steps h
  have hentries : ∀ {s s' : Rebuilt} {indices : List Nat} {rs : List (Composite Ty × Nat)},
      Counted s → Steps (expand raw maxDepth []) s indices rs s' →
        Counted s' ∧ ∀ r ∈ rs, ∀ m ∈ r.1.members, Small m := by
    intro s s' indices rs hs h
    induction h with
    | nil => exact ⟨hs, nofun⟩
    | cons hb _ ih =>
      obtain ⟨hs₁, _, hr⟩ := counts_expand raw maxDepth _ _ _ _ _ hs hb
      obtain ⟨hs₂, hrs⟩ := ih hs₁
      exact ⟨hs₂, List.forall_mem_cons.mpr ⟨hr, hrs⟩⟩
  obtain ⟨hs₁, hrs⟩ := hentries (counted_empty _) hrs
  obtain ⟨_, hts⟩ := members_counted (counts_expand raw maxDepth) hs₁ hts
  exact ⟨List.forall_mem_map.mpr hrs, List.forall_mem_map.mpr fun r hr => (hts r hr).2⟩

/-- A rebuilt entry has as many members as the entry that was read. -/
theorem Rebuilds.length_members {raw : List Entry} {s : Rebuilt}
    (h : Rebuilds raw.toArray codes s t args) :
    t.entries.map (·.members.length) = raw.map (·.members.length) := by
  refine List.ext_getElem? fun i => ?_
  rw [List.getElem?_map, List.getElem?_map]
  cases hraw : raw[i]? with
  | none =>
    have hle := List.getElem?_eq_none_iff.mp hraw
    rw [List.getElem?_eq_none_iff.mpr (h.length_entries ▸ hle), Option.map_none, Option.map_none]
  | some e =>
    obtain ⟨c, n, hc, hknown⟩ := h.entry (List.getElem?_eq_some_iff.mp hraw).1
    obtain ⟨e', he', hrel⟩ := h.faithful.entry i c n hknown
    rw [List.getElem?_toArray, hraw] at he'
    cases he'
    rw [hc, Option.map_some, Option.map_some, hrel.members.length_eq]

/-- Members that are small, and the types that hold them. -/
theorem size_le_of_small {c : Composite Ty} (h : ∀ m ∈ c.members, Small m) :
    (Ty.composite c).size ≤ maxInlined * (c.members.length + 1) := by
  have hsum := List.sum_le_card_nsmul (c.members.map Ty.size) maxInlined (List.forall_mem_map.mpr h)
  have hpos : 1 ≤ maxInlined := by decide
  rw [List.length_map, smul_eq_mul, Nat.mul_comm] at hsum
  rw [Ty.size_composite, Nat.mul_add, Nat.mul_one]
  omega

/-- The entries of a prelude take a byte each and one for each of their members. -/
theorem length_of_run {raw : List Entry} {bytes rest : List UInt8}
    (h : Step.Run Entry.read bytes raw rest) :
    rest.length + (raw.map (·.members.length + 1)).sum ≤ bytes.length := by
  induction h with
  | nil => simp
  | cons hfirst _ ih =>
    have htaken := Entry.weighs_read hfirst
    dsimp only at htaken
    simp only [List.map_cons, List.sum_cons]
    omega

/-- So does the code of each argument. -/
theorem Announces.length_le {raw : List Entry} {bytes rest : List UInt8}
    (h : Announces bytes raw codes rest) :
    rest.length + ((raw.map (·.members.length + 1)).sum + codes.length) ≤ bytes.length := by
  obtain ⟨hcount, hrun, hcodes⟩ := h
  have hfirst := Reader.streams_length.taken hcount
  have hnext := length_of_run hrun
  have hlast := Entry.weighs_readCodes 0 hcodes
  dsimp only at hlast
  rw [List.length_append]
  omega

/-- However much the entries of a prelude share their members, there are at most 4096 types in all
entries and arguments for each byte that was read. -/
theorem readPrelude_size_le {bytes rest : List UInt8} {t : Table} {args : List Ty}
    (h : readPrelude bytes = (.ok (t, args), rest)) :
    (t.entries.map fun c => (Ty.composite c).size).sum + (args.map Ty.size).sum ≤
      4096 * (bytes.length - rest.length) := by
  obtain ⟨raw, codes, hannounces, _, _, hbuilt⟩ := readPrelude_eq_ok h
  obtain ⟨hentries, hargs⟩ := rebuild_small hbuilt
  obtain ⟨s, hs⟩ := rebuild_eq_ok hbuilt
  have hentries : (t.entries.map fun c => (Ty.composite c).size).sum ≤
      maxInlined * (raw.map (·.members.length + 1)).sum := by
    have hlengths : raw.map (·.members.length + 1) = t.entries.map (·.members.length + 1) := by
      simpa [Function.comp_def] using congrArg (List.map (· + 1)) hs.length_members.symm
    rw [hlengths, ← List.sum_map_mul_left]
    exact List.sum_le_sum fun c hc => size_le_of_small (hentries c hc)
  have hargs : (args.map Ty.size).sum ≤ maxInlined * codes.length := by
    have hsum := List.sum_le_card_nsmul (args.map Ty.size) maxInlined (List.forall_mem_map.mpr hargs)
    rwa [List.length_map, smul_eq_mul, Nat.mul_comm, ← hs.arguments.length_eq] at hsum
  have htaken : (raw.map (·.members.length + 1)).sum + codes.length ≤ bytes.length - rest.length :=
    Nat.le_sub_of_add_le' hannounces.length_le
  calc _ ≤ maxInlined * (raw.map (·.members.length + 1)).sum + maxInlined * codes.length :=
        Nat.add_le_add hentries hargs
    _ = maxInlined * ((raw.map (·.members.length + 1)).sum + codes.length) := (Nat.mul_add ..).symm
    _ ≤ _ := Nat.mul_le_mul_left maxInlined htaken

/-- A record whose two fields share one entry, which is copied into both of them. -/
theorem readPrelude_size_le_shared :
    let inner : Composite Ty := .opt (.prim .nat)
    let outer : Composite Ty := .record [⟨0, none, .composite inner⟩, ⟨1, none, .composite inner⟩]
    readPrelude (magic ++ [2, 0x6c, 2, 0, 1, 1, 1, 0x6e, 0x7d, 1, 0]) =
        (.ok (⟨[outer, inner], []⟩, [.composite outer]), []) ∧
      5 + 2 + 5 ≤ 4096 * (15 - 0) := by
  intro inner outer
  have hread : readPrelude (magic ++ [2, 0x6c, 2, 0, 1, 1, 1, 0x6e, 0x7d, 1, 0]) =
      (.ok (⟨[outer, inner], []⟩, [.composite outer]), []) := by cbv
  exact ⟨hread, readPrelude_size_le hread⟩

end Table
end Didl
