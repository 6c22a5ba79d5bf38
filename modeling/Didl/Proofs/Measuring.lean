import Didl.Proofs.WriteAlike

namespace Didl

/-- A step that counts what a writer writes: from any buffer and any sum both come to one result, and
as many bytes are appended to the one as are added to the other. -/
def Writer.Measured (w : Writer) (m : Step Nat Unit) : Prop :=
  ∃ (r : Except Fault Unit) (bs : List UInt8),
    (∀ out, w out = (r, out ++ bs)) ∧ ∀ sum, m sum = (r, sum + bs.length)

namespace Writer.Measured
variable {α : Type} {w : Writer} {m : Step Nat Unit}

theorem pure : Measured (Pure.pure ()) (Pure.pure ()) :=
  ⟨.ok (), [], fun out => by simp [Step.pure_apply], fun _ => rfl⟩

theorem fail (e : Fault) : Measured (Step.fail e) (Step.fail e) :=
  ⟨.error e, [], fun out => by simp [Step.fail], fun _ => rfl⟩

theorem bytes {bs : List UInt8} {n : Nat} (h : bs.length = n) :
    Measured (Writer.bytes bs) (Value.more n) :=
  ⟨.ok (), bs, fun _ => rfl, fun _ => by rw [h]; rfl⟩

theorem byte (b : UInt8) : Measured (Writer.byte b) (Value.more 1) :=
  ⟨.ok (), [b], fun out => by simp [Writer.byte], fun _ => rfl⟩

/-- One after the other: the second ones are only taken where the first ones succeed. -/
theorem bind {f : Unit → Writer} {g : Unit → Step Nat Unit} (h : Measured w m)
    (k : ∀ a, Measured (f a) (g a)) : Measured (w >>= f) (m >>= g) := by
  obtain ⟨r, bs, hw, hm⟩ := h
  cases r with
  | error e =>
    exact ⟨.error e, bs, fun out => by rw [Step.bind_apply, hw], fun sum => by
      rw [Step.bind_apply, hm]⟩
  | ok a =>
    obtain ⟨r', bs', hf, hg⟩ := k a
    refine ⟨r', bs ++ bs', fun out => ?_, fun sum => ?_⟩
    · rw [Step.bind_apply, hw]
      exact (hf _).trans (by rw [Value.append_append])
    · rw [Step.bind_apply, hm]
      exact (hg _).trans (by rw [List.length_append, Nat.add_assoc])

/-- Both ask for one result first and go on with it or stop at its fault. -/
theorem ofExcept {r : Except Fault α} {f : α → Writer} {g : α → Step Nat Unit}
    (k : ∀ a, Measured (f a) (g a)) :
    Measured (Step.ofExcept r >>= f) (Step.ofExcept r >>= g) := by
  cases r with
  | ok a => exact k a
  | error e => exact fail e

theorem forM {items : List α} {f : α → Writer} {g : α → Step Nat Unit}
    (h : ∀ a ∈ items, Measured (f a) (g a)) : Measured (items.forM f) (items.forM g) := by
  induction items with
  | nil => exact pure
  | cons a items ih =>
    exact (h a List.mem_cons_self).bind fun _ => ih fun b hb => h b (List.mem_cons_of_mem _ hb)

end Writer.Measured

/-- A value of a primitive type has a size there exactly if it has bytes, and they are as many. -/
theorem Prim.size?_eq_map (p : Prim) (v : Value) : p.size? v = (p.bytes? v).map List.length := by
  cases h : p.bytes? v with
  | some bs => exact Prim.size?_eq h
  | none => cases p <;> cases v <;> first | rfl | cases h

namespace Value
open Writer

theorem dispatch_measured (t : Table) (type : Ty) (v : Value) {write : Prim → Option Writer}
    {count : Prim → Option (Step Nat Unit)} {f : Composite Ty → Writer}
    {g : Composite Ty → Step Nat Unit} (hprim : ∀ p, Option.Rel Measured (write p) (count p))
    (hcomposite : ∀ c, Measured (f c) (g c)) :
    Measured (dispatch t type v write f) (dispatch t type v count g) := by
  refine .ofExcept fun head => ?_
  cases head with
  | composite c => exact hcomposite c
  | prim p =>
    have hp := hprim p
    cases p
    case reserved => exact .pure
    case empty => exact .fail _
    all_goals
      dsimp only
      generalize write _ = x at hp ⊢
      generalize count _ = y at hp ⊢
      cases hp with
      | some h => exact h
      | none => exact .fail _

theorem eachField_measured {fields : List (Field Ty)} {writers : Assoc UInt32 (Ty → Writer)}
    {counts : Assoc UInt32 (Ty → Step Nat Unit)}
    (h : ∀ id, Option.Rel (fun w m => ∀ type, Measured (w type) (m type)) (writers.lookup id)
      (counts.lookup id)) : Measured (eachField writers fields) (eachField counts fields) := by
  induction fields with
  | nil => exact .pure
  | cons f fields ih =>
    have hfirst := h f.id
    rw [eachField, eachField]
    generalize writers.lookup f.id = x at hfirst
    generalize counts.lookup f.id = y at hfirst
    cases hfirst with
    | none => exact .fail _
    | some hfirst => exact (hfirst f.type).bind fun _ => ih

structure Marks.Counts (m : Marks (Array UInt8)) (n : Marks Nat) : Prop where
  prim : ∀ v p, Option.Rel Measured (m.prim v p) (n.prim v p)
  absent : Measured m.absent n.absent
  present : Measured m.present n.present
  count : ∀ k, Measured (m.count k) (n.count k)
  tag : ∀ id, Measured (m.tag id) (n.tag id)
  blob : ∀ bs, Measured (m.blob bs) (n.blob bs)
  func : ∀ ref, Measured (m.func ref) (n.func ref)
  service : ∀ id, Measured (m.service id) (n.service id)

namespace IsWalk
variable {writes : Table → Value → Ty → Writer} {writesItems : Table → List Value → Ty → Writer}
  {writesFields : Table → List (UInt32 × Value) → Assoc UInt32 (Ty → Writer)}
  {counts : Table → Value → Ty → Step Nat Unit}
  {countsItems : Table → List Value → Ty → Step Nat Unit}
  {countsFields : Table → List (UInt32 × Value) → Assoc UInt32 (Ty → Step Nat Unit)}
  {m : Marks (Array UInt8)} {n : Marks Nat} (hwrites : IsWalk writes writesItems writesFields m)
  (hcounts : IsWalk counts countsItems countsFields n) (hmarks : m.Counts n)
include hwrites hcounts hmarks

theorem leaf_measured (t : Table) (type : Ty) {v : Value} (hv : IsLeaf v) :
    Measured (writes t v type) (counts t v type) := by
  rw [hwrites.leaf t v type hv, hcounts.leaf t v type hv]
  refine dispatch_measured t type v (hmarks.prim v) fun c => ?_
  split
  · exact hmarks.absent
  · refine .ofExcept fun head => ?_
    split
    · exact hmarks.blob _
    · exact .fail _
  · exact hmarks.func _
  · exact hmarks.service _
  · exact hmarks.blob _
  · exact .fail _

/-- Walks that measure each other at single values do so at whole ones. -/
theorem measured (t : Table) (v : Value) (type : Ty) :
    Measured (writes t v type) (counts t v type) := by
  have hnone : ∀ p : Prim, Option.Rel Measured ((fun _ => none) p) ((fun _ => none) p) :=
    fun _ => .none
  induction v using induct generalizing type with
  | step v ih =>
    cases v using forms with
    | leaf v hv => exact hwrites.leaf_measured hcounts hmarks t type hv
    | opt w =>
      rw [hwrites.opt, hcounts.opt]
      refine dispatch_measured t type _ hnone fun c => ?_
      split
      · exact hmarks.present.bind fun _ => ih w (List.mem_singleton_self w) _
      · exact .fail _
    | vec items =>
      rw [hwrites.vec, hcounts.vec]
      refine dispatch_measured t type _ hnone fun c => ?_
      split
      · rw [hwrites.items_eq, hcounts.items_eq]
        exact (hmarks.count _).bind fun _ => .forM fun w hw => ih w hw _
      · exact .fail _
    | record values =>
      rw [hwrites.record, hcounts.record]
      refine dispatch_measured t type _ hnone fun c => ?_
      split
      · rw [hwrites.fields_eq, hcounts.fields_eq]
        refine .ofExcept fun fields => eachField_measured fun id => ?_
        rw [lookup_map, lookup_map]
        cases hw : values.lookup id with
        | none => exact .none
        | some w => exact .some fun type => ih w (mem_of_lookup hw) type
      · exact .fail _
    | variant id w =>
      rw [hwrites.variant, hcounts.variant]
      refine dispatch_measured t type _ hnone fun c => ?_
      split
      · split
        · exact (hmarks.tag id).bind fun _ => ih w (List.mem_singleton_self w) _
        · exact .fail _
      · exact .fail _

end IsWalk

theorem write_measured (t : Table) (v : Value) (type : Ty) :
    Measured (v.write t type) (v.addSize t type) := by
  refine isWalk_write.measured isWalk_addSize ?_ t v type
  constructor
  case prim =>
    intro v p
    dsimp only
    rw [Prim.size?_eq_map]
    cases p.bytes? v with
    | none => exact .none
    | some bs => exact .some (.bytes rfl)
  case absent => exact .byte 0
  case present => exact .byte 1
  case count => exact fun k => .bytes (Varint.length_ofNat k)
  case tag => exact fun id => .bytes (Varint.length_ofNat id.toNat)
  case blob => exact fun bs => .bytes (length_blob bs)
  case func => exact fun ref => .bytes (length_funcBytes ref)
  case service => exact fun id => .bytes (length_referenceBytes id)

/-- The size of a value is the count of the bytes that hold it. -/
theorem size_of_encodes {t : Table} {v : Value} {type : Ty} {bytes : List UInt8}
    (h : Encodes t v type bytes) : v.size t type = .ok bytes.length := by
  obtain ⟨r, bs, hwrite, hcount⟩ := write_measured t v type
  obtain ⟨rfl, hout⟩ := Prod.mk.inj ((hwrite #[]).symm.trans (write_of_encodes h #[]))
  have hbytes : bs = bytes := by simpa using congrArg Array.toList hout
  rw [size, hcount, hbytes, Nat.zero_add]

theorem encode_of_encodes {t : Table} {v : Value} {type : Ty} {bytes : List UInt8}
    (h : Encodes t v type bytes) : v.encode t type = .ok bytes := by
  refine except_bind_ok (size_of_encodes h) ?_
  rw [write_of_encodes h]
  simp

/-- The size of any value as any type, and what writing it does to any buffer. There is a size exactly
if the value can be written, and it is the count of the bytes appended; otherwise both stop at one
fault. What stood in the buffer stands in front of what is there then. -/
theorem size_iff_write (t : Table) (v : Value) (type : Ty) (out : Array UInt8) :
    (∀ n, v.size t type = .ok n ↔
      ∃ bytes : List UInt8, v.write t type out = (.ok (), out ++ bytes) ∧ bytes.length = n) ∧
    (∀ e, v.size t type = .error e ↔ (v.write t type out).1 = .error e) ∧
    out.toList <+: (v.write t type out).2.toList := by
  obtain ⟨r, bs, hwrite, hcount⟩ := write_measured t v type
  have hsize : v.size t type = r.map fun _ => bs.length := by
    rw [size, hcount]
    cases r with
    | ok a => exact congrArg Except.ok (Nat.zero_add _)
    | error e => rfl
  rw [hsize, hwrite out]
  refine ⟨fun n => ?_, fun e => ?_, ?_⟩
  · cases r with
    | error e => simp [Except.map]
    | ok a =>
      constructor
      · intro h
        exact ⟨bs, rfl, Except.ok.inj h⟩
      · rintro ⟨bytes, h, rfl⟩
        have hsame : bs = bytes := by simpa using congrArg Array.toList (Prod.mk.inj h).2
        rw [hsame]
        rfl
  · cases r <;> simp [Except.map]
  · simp

/- A fault deep inside leaves what was written in front of it: the length of the vector and its first
element. -/
example : write {} (.vec [.bool true, .null]) (.composite (.vec (.prim .bool))) #[9] =
    (.error (.mismatch "bool" "null"), #[9, 2, 1]) := by cbv

end Value

end Didl
