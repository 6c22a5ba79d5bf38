import Didl.Native
import Didl.Proofs.OwnMessages
import Didl.Proofs.Reencoding

namespace Didl

namespace Scheme
open Value

/-- The levels of options and lists in a type. -/
def layers : Scheme → Nat
  | opt s | vec s => s.layers + 1
  | _ => 0

def ShortNumbers : (s : Scheme) → s.Carrier → Prop
  | nat, n => (Varint.ofNat n).length ≤ Varint.maxGroups
  | int, i => (Varint.ofInt i).length ≤ Varint.maxGroups
  | opt s, o => ∀ x ∈ o, s.ShortNumbers x
  | vec s, xs => ∀ x ∈ xs, s.ShortNumbers x
  | _, _ => True

/-- How many elements the lists of units in a value have together. -/
def unitCount : (s : Scheme) → s.Carrier → Nat
  | opt s, o => o.elim 0 s.unitCount
  | vec s, xs => (if s = unit then xs.length else 0) + (xs.map s.unitCount).sum
  | _, _ => 0

section Value
variable (t : Table) (s : Scheme) (x : s.Carrier)

/-- Every value can be written as its type. -/
theorem encodes_toValue : ∃ bytes, Encodes t (s.toValue x) s.type bytes := by
  induction s with
  | opt s ih =>
    cases x with
    | none => exact ⟨_, .none rfl⟩
    | some x =>
      obtain ⟨bytes, hbytes⟩ := ih x
      exact ⟨_, .some rfl hbytes⟩
  | vec s ih =>
    have hitems : ∀ v ∈ x.map s.toValue, ∃ bytes, Encodes t v s.type bytes :=
      List.forall_mem_map.mpr fun y _ => ih y
    obtain ⟨parts, hparts, hencodes⟩ := exists_pairs hitems
    rw [toValue, ← hparts]
    exact ⟨_, .vec rfl hencodes⟩
  | _ => exact ⟨_, .prim rfl rfl⟩

theorem ordered_toValue : (s.toValue x).Ordered := by
  induction s with
  | opt s ih =>
    cases x with
    | none => exact .of_leaf rfl nofun
    | some x => exact .of_children (List.forall_mem_singleton.mpr (ih x)) nofun
  | vec s ih =>
    refine .of_children (fun v hv => ?_) nofun
    obtain ⟨y, _, rfl⟩ := List.mem_map.mp hv
    exact ih y
  | _ => exact .of_leaf rfl nofun

theorem depth_toValue : (s.toValue x).depth ≤ s.layers := by
  induction s with
  | opt s ih =>
    refine depth_le_of_children fun v hv => ?_
    cases x with
    | none => cases hv
    | some x =>
      rw [List.mem_singleton.mp hv]
      exact Nat.lt_succ_of_le (ih x)
  | vec s ih =>
    refine depth_le_of_children fun v hv => ?_
    obtain ⟨y, _, rfl⟩ := List.mem_map.mp hv
    exact Nat.lt_succ_of_le (ih y)
  | _ => exact depth_le_of_children nofun

variable {s x}

theorem shortNumbers_toValue (h : s.ShortNumbers x) : (s.toValue x).ShortNumbers := by
  induction s with
  | nat =>
    refine .of_children nofun (fun n hn => ?_) nofun
    cases hn
    exact h
  | int =>
    refine .of_children nofun nofun fun i hi => ?_
    cases hi
    exact h
  | opt s ih =>
    cases x with
    | none => exact .of_leaf rfl nofun nofun
    | some x => exact .of_children (List.forall_mem_singleton.mpr (ih (h x rfl))) nofun nofun
  | vec s ih =>
    refine .of_children (fun v hv => ?_) nofun nofun
    obtain ⟨y, hy, rfl⟩ := List.mem_map.mp hv
    exact ih (h y hy)
  | _ => exact .of_leaf rfl nofun nofun

variable (s x)

/-- Of these types the unit alone takes no bytes. -/
theorem isZeroSized_type (limit : Nat) :
    t.isZeroSized (limit + 1) s.type = decide (s = unit) := by
  cases s <;> rfl

theorem isByte_type : t.isByte s.type = decide (s = nat8) := by
  cases s <;> rfl

theorem zeroItems_toValue : zeroItems t (s.toValue x) s.type = s.unitCount x := by
  induction s with
  | opt s ih =>
    cases x with
    | none => rw [toValue, Option.map_none, zeroItems.eq_def]; rfl
    | some x => exact (zeroItems_some rfl _).trans (ih x)
  | vec s ih =>
    rw [toValue, type, zeroItems_vec rfl, isZeroSized_type, List.length_map, List.map_map, unitCount]
    simp only [decide_eq_true_eq]
    congr 2
    exact List.map_congr_left fun y _ => ih y
  | _ => rw [zeroItems.eq_def]; rfl

/-- What a reader makes of a value is taken for the value again. -/
theorem ofValue_normal : s.ofValue (normal t (s.toValue x) s.type) = .ok x := by
  induction s with
  | opt s ih =>
    cases x with
    | none => rw [toValue, Option.map_none, normal.eq_def]; rfl
    | some x =>
      rw [toValue, Option.map_some, type, normal_some rfl, ofValue, ih]
      rfl
  | vec s ih =>
    rw [toValue, type, normal_vec rfl, isByte_type]
    split
    case isTrue hbyte =>
      obtain rfl := of_decide_eq_true hbyte
      refine except_mapM_eq_ok.mpr ?_
      rw [List.map_map, List.forall₂_map_left_iff]
      exact List.forall₂_same.mpr fun _ _ => rfl
    case isFalse =>
      refine except_mapM_eq_ok.mpr ?_
      rw [List.map_map, List.forall₂_map_left_iff]
      exact List.forall₂_same.mpr fun y _ => ih y
  | _ => rw [normal.eq_def]; rfl

end Value

section Types
variable {t : Table} {R : Ty → Ty → Prop}

theorem names_type (s : Scheme) : s.type.names = [] := by
  induction s with
  | opt s ih | vec s ih =>
    rw [type, Ty.names_composite]
    simpa [Composite.members] using ih
  | _ => rfl

/-- There is one constructed type for each level. -/
theorem length_parts_type (s : Scheme) : s.type.parts.length = s.layers := by
  induction s with
  | opt s ih | vec s ih =>
    rw [type, Ty.parts_composite, layers]
    simpa [Composite.members] using ih
  | _ => rfl

theorem proper_empty : ({} : Table).Proper := ⟨Table.Built.empty.sound, nofun⟩

theorem wellFormed_type (s : Scheme) : ({} : Table).WellFormed s.type := by
  induction s with
  | opt s ih | vec s ih =>
    exact .composite trivial nofun (List.forall_mem_singleton.mpr ih)
  | _ => exact ⟨nofun, nofun, nofun⟩

theorem type_injective : Function.Injective type := by
  intro u s h
  induction u generalizing s with
  | opt u ih | vec u ih =>
    cases s <;> simp only [type, reduceCtorEq, Ty.composite.injEq, Composite.opt.injEq,
      Composite.vec.injEq] at h
    rw [ih h]
  | _ => cases s <;> first | rfl | cases h

/-- What stands beside one of these types under a bisimulation shows the same. -/
theorem follow_of_type (hR : IsBisimulation ({} : Table).former t.former R) {s : Scheme} {b : Ty}
    (hb : R s.type b) :
    (∃ p, s.type = .prim p ∧ t.follow b = .ok (.prim p)) ∨
      (∃ s' b', s = .opt s' ∧ R s'.type b' ∧ t.follow b = .ok (.composite (.opt b'))) ∨
      ∃ s' b', s = .vec s' ∧ R s'.type b' ∧ t.follow b = .ok (.composite (.vec b')) := by
  obtain ⟨f, g, hf, hg, hfg⟩ := hR _ _ hb
  obtain ⟨y, hy, rfl⟩ := Table.former_eq_some.mp hg
  rw [hy]
  cases s with
  | opt s =>
    cases hf
    obtain p | d := y <;> cases hfg
    rename_i h
    cases h with
    | opt h => exact .inr (.inl ⟨s, _, rfl, h, rfl⟩)
  | vec s =>
    cases hf
    obtain p | d := y <;> cases hfg
    rename_i h
    cases h with
    | vec h => exact .inr (.inr ⟨s, _, rfl, h, rfl⟩)
  | _ =>
    cases hf
    obtain p | d := y <;> cases hfg
    exact .inl ⟨_, rfl, rfl⟩

theorem compare_follow {limit : Nat} {met : NamePairs} {u : Scheme} {b : Ty} {x y : Head}
    (hx : ({} : Table).follow u.type = .ok x) (hy : t.follow b = .ok y) :
    ({} : Table).compare t (limit + 1) met u.type b =
      Comparison.heads (({} : Table).compare t limit) met x y := by
  have hmeet : Comparison.meet? met u.type b = some met := by cases u <;> rfl
  simp only [Table.compare, hmeet, hx, hy]

/-- Formers of one member each agree as their members do. -/
theorem heads_member {check : NamePairs → Ty → Ty → Comparison} {c d : Composite Ty} {a b : Ty}
    (hzip : c.zip d = some [(true, a, b)]) {met : NamePairs} {verdict : Bool}
    (h : check met a b = some (.ok (verdict, met))) :
    Comparison.heads check met (.composite c) (.composite d) = some (.ok (verdict, met)) := by
  rw [Comparison.heads, hzip]
  cases verdict <;> simp only [Comparison.all, h, if_true]

/-- One of these types is compared with what shows the same as another one: they agree exactly if the
two are the same, and the levels of the first are enough to see it. -/
theorem compare_type (hR : IsBisimulation ({} : Table).former t.former R) {u s : Scheme} {b : Ty}
    (hb : R s.type b) {limit : Nat} (hlimit : u.layers < limit) (met : NamePairs) :
    ({} : Table).compare t limit met u.type b = some (.ok (decide (u = s), met)) := by
  induction u generalizing s b limit with
  | opt u ih =>
    obtain ⟨limit, rfl⟩ : ∃ n, limit = n + 1 := ⟨limit - 1, by omega⟩
    rcases follow_of_type hR hb with ⟨p, hs, hy⟩ | ⟨s, b', rfl, hb', hy⟩ | ⟨s, b', rfl, hb', hy⟩
    all_goals rw [compare_follow rfl hy]
    · cases s <;> first | rfl | cases hs
    · simp only [opt.injEq]
      exact heads_member rfl (ih hb' (Nat.lt_of_succ_lt_succ hlimit))
    · rfl
  | vec u ih =>
    obtain ⟨limit, rfl⟩ : ∃ n, limit = n + 1 := ⟨limit - 1, by omega⟩
    rcases follow_of_type hR hb with ⟨p, hs, hy⟩ | ⟨s, b', rfl, hb', hy⟩ | ⟨s, b', rfl, hb', hy⟩
    all_goals rw [compare_follow rfl hy]
    · cases s <;> first | rfl | cases hs
    · rfl
    · simp only [vec.injEq]
      exact heads_member rfl (ih hb' (Nat.lt_of_succ_lt_succ hlimit))
  | _ =>
    obtain ⟨limit, rfl⟩ : ∃ n, limit = n + 1 := ⟨limit - 1, by omega⟩
    rcases follow_of_type hR hb with ⟨p, hs, hy⟩ | ⟨s, b', rfl, hb', hy⟩ | ⟨s, b', rfl, hb', hy⟩
    all_goals rw [compare_follow rfl hy]
    · rw [Comparison.heads]
      congr
      rw [Bool.eq_iff_iff, beq_iff_eq, decide_eq_true_iff, ← type_injective.eq_iff, hs, type,
        Ty.prim.injEq]
    all_goals rfl

theorem equivalent_type (hR : IsBisimulation ({} : Table).former t.former R) (u : Scheme)
    {s : Scheme} {b : Ty} (hb : R s.type b) :
    ({} : Table).equivalent u.type t b = some (.ok (decide (u = s))) := by
  rw [Table.equivalent, Table.compare_limit (compare_type hR hb (Nat.lt_succ_self _) [])]

end Types

section Message
variable {s : Scheme} {x : s.Carrier}

/-- What a type without names leads to occurs in it. -/
theorem parts_of_reach {t : Table} {a b : Ty} (ha : a.names = []) (h : t.Reach a b) :
    b.names = [] ∧ b.parts ⊆ a.parts := by
  refine h.invariant (P := fun b => b.names = [] ∧ b.parts ⊆ a.parts) (fun u f hu hf v hv => ?_)
    ⟨ha, List.Subset.refl _⟩
  obtain ⟨hnames, hparts⟩ := hu
  cases u with
  | prim p =>
    cases hf
    cases hv
  | named y => cases hnames
  | composite c =>
    cases hf
    rw [Ty.names_composite, List.flatMap_eq_nil_iff] at hnames
    refine ⟨hnames v hv, fun d hd => hparts ?_⟩
    rw [Ty.parts_composite]
    exact List.mem_cons_of_mem _ (List.mem_flatMap.mpr ⟨v, hv, hd⟩)

/-- The table that is sent along has an entry for each level of the type at most. -/
theorem size_tableFor_le {codes : List Int} {sub : Table}
    (h : Message.tableFor {} [s.type] = .ok (codes, sub)) : sub.size ≤ s.layers := by
  obtain ⟨hcopies, _, _⟩ := Message.tableFor_eq_ok h
  obtain ⟨registered, hexact, _⟩ := Message.tableFor_listed h
  rw [← length_parts_type]
  refine hexact.size_le (u := ⟨s.type.parts, []⟩) fun c hc => ?_
  obtain ⟨_, htype, u, hu, hf⟩ := hcopies.entries c hc
  obtain rfl := List.mem_singleton.mp htype
  obtain ⟨hnames, hparts⟩ := parts_of_reach (names_type s) hu
  refine hparts ?_
  cases u with
  | prim p => cases hf
  | named y => cases hnames
  | composite d =>
    cases hf
    rw [Ty.parts_composite]
    exact List.mem_cons_self

/-- Writing a value always makes a message. -/
theorem encodeOne_returns (s : Scheme) (x : s.Carrier) : ∃ bytes, s.encodeOne x = .ok bytes := by
  obtain ⟨codes, sub, registered, hsub, hexact⟩ :=
    @Message.tableFor_returns {} [s.type] proper_empty.sound
      (List.forall_mem_singleton.mpr (proper_empty.closed (wellFormed_type s)))
  obtain ⟨hcopies, hnames, _⟩ := Message.tableFor_eq_ok hsub
  obtain ⟨entries, hentries⟩ := Table.entries_return hexact hcopies hnames
  obtain ⟨bytes, hbytes⟩ := encodes_toValue sub s x
  exact ⟨_, Message.encode_ok hsub hentries rfl (.cons hbytes .nil)⟩

/-- A message of one value is read against the type of any other value: it comes to a verdict, and
the value is given back if the types are the same. -/
theorem decodeAs_encodeOne (hlayers : s.layers ≤ maxDepth) (hnumbers : s.ShortNumbers x)
    (hunits : s.unitCount x ≤ maxZeroSized) {bytes : List UInt8} (h : s.encodeOne x = .ok bytes)
    (hlt : bytes.length < 2 ^ 63) : ∃ found, ∀ u : Scheme, Message.decodeAs {} [u.type] bytes =
      if u = s then some (.ok [normal {} (s.toValue x) s.type])
      else some (.error (.mismatch u.type.text found)) := by
  have hlimits : Message.WithinLimits {} [s.type] [s.toValue x] := by
    constructor
    case depth => exact List.forall_mem_singleton.mpr (Nat.le_trans (depth_toValue s x) hlayers)
    case entries => exact fun _ _ hsub => Nat.le_trans (size_tableFor_le hsub) hlayers
    case zeroItems => simpa [zeroItems_toValue] using hunits
    case numbers => exact List.forall_mem_singleton.mpr (shortNumbers_toValue hnumbers)
  obtain ⟨codes, sub, entries, finished, order, t, types', hsub, hentries, hs, horder, hpaired, hok⟩ :=
    Message.decode_paired proper_empty (List.forall_mem_singleton.mpr (wellFormed_type s))
      (List.forall_mem_singleton.mpr (ordered_toValue s x)) h hlimits hlt
  obtain ⟨hcopies, _, _⟩ := Message.tableFor_eq_ok hsub
  have hbisimulation := Table.paired_isBisimulation proper_empty hcopies hentries hs horder
  obtain _ | ⟨hpair, ⟨⟩⟩ := hpaired
  rename_i b
  refine ⟨b.text, fun u => ?_⟩
  obtain ⟨head, hhead, hnot⟩ : ∃ head, ({} : Table).follow u.type = .ok head ∧
      head.isPrim .reserved = false := by cases u <;> exact ⟨_, rfl, rfl⟩
  refine (Message.decodeAs_of_decode hok rfl).trans
    ((Message.expectAll_compared hhead hnot (equivalent_type hbisimulation u hpair)).trans ?_)
  by_cases hus : u = s
  · rw [decide_eq_true hus, if_pos hus]
    rfl
  · rw [decide_eq_false hus, if_neg hus]
    rfl

/-- A value is sent and read back. Its message, if a buffer can hold it, gives the value again when it
is read as the type that it was written for, and every other type that is known without a table
refuses it. -/
theorem decodeOne_encodeOne (s : Scheme) (x : s.Carrier) (hlayers : s.layers ≤ maxDepth)
    (hnumbers : s.ShortNumbers x) (hunits : s.unitCount x ≤ maxZeroSized) :
    ∃ bytes, s.encodeOne x = .ok bytes ∧ (bytes.length < 2 ^ 63 →
      s.decodeOne bytes = some (.ok x) ∧
        ∃ found, ∀ u ≠ s, u.decodeOne bytes = some (.error (.mismatch u.type.text found))) := by
  obtain ⟨bytes, hbytes⟩ := encodeOne_returns s x
  refine ⟨bytes, hbytes, fun hlt => ?_⟩
  obtain ⟨found, hread⟩ := decodeAs_encodeOne hlayers hnumbers hunits hbytes hlt
  refine ⟨?_, found, fun u hu => ?_⟩
  · rw [decodeOne, hread, if_pos rfl]
    exact congrArg some (ofValue_normal {} s x)
  · rw [decodeOne, hread, if_neg hu]
    rfl

/-- The elements are read as bytes and taken for a list again. -/
theorem decodeOne_encodeOne_bytes :
    (vec nat8).decodeOne [68, 73, 68, 76, 1, 109, 123, 1, 0, 2, 7, 255] = some (.ok [7, 255]) ∧
      ∃ found, ∀ u ≠ vec nat8,
        u.decodeOne [68, 73, 68, 76, 1, 109, 123, 1, 0, 2, 7, 255] =
          some (.error (.mismatch u.type.text found)) := by
  have hbytes : (vec nat8).encodeOne [7, 255] =
      .ok [68, 73, 68, 76, 1, 109, 123, 1, 0, 2, 7, 255] := by cbv
  obtain ⟨bytes, hencoded, hread⟩ :=
    decodeOne_encodeOne (vec nat8) [7, 255] (by decide) (fun _ _ => trivial) (by decide)
  cases hencoded.symm.trans hbytes
  exact hread (by decide)

end Message

end Scheme

end Didl
