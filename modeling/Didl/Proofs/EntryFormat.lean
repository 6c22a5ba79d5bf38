import Didl.Prelude.Basic
import Didl.Proofs.AscendingLists
import Didl.Proofs.Groups
import Didl.Proofs.ReadTables

namespace Didl

theorem byteArray_toList (b : ByteArray) : b.toList = b.data.toList := by
  have hloop : ∀ (n i : Nat) (done : List UInt8), n = b.size - i →
      ByteArray.toList.loop b i done = done.reverse ++ b.data.toList.drop i := by
    intro n
    induction n with
    | zero =>
      intro i done hn
      rw [ByteArray.toList.loop, if_neg (by omega), List.drop_eq_nil_of_le, List.append_nil]
      rw [Array.length_toList, ByteArray.size_data]
      omega
    | succ n ih =>
      intro i done hn
      have hi : i < b.data.toList.length := by
        rw [Array.length_toList, ByteArray.size_data]
        omega
      rw [ByteArray.toList.loop, if_pos (by omega), ih (i + 1) _ (by omega), List.reverse_cons,
        List.append_assoc, List.drop_eq_getElem_cons hi]
      have hget : b.get! i = b.data.toList[i] :=
        getElem!_pos b.data i (by simpa using hi)
      rw [hget]
      rfl
  exact hloop _ 0 [] rfl

/-- The text that bytes are the encoding of. -/
theorem fromUTF8?_eq_some {bs : List UInt8} {s : String} :
    String.fromUTF8? bs.toByteArray = some s ↔ s.toUTF8.toList = bs := by
  rw [String.toUTF8_eq_toByteArray, byteArray_toList]
  constructor
  · intro h
    unfold String.fromUTF8? at h
    split at h
    · cases h
      exact (List.data_toByteArray).symm ▸ rfl
    · cases h
  · rintro rfl
    have hbytes : s.toByteArray.data.toList.toByteArray = s.toByteArray := by
      apply ByteArray.ext
      rw [List.data_toByteArray, Array.toArray_toList]
    rw [hbytes, String.fromUTF8?, dif_pos s.isValidUTF8]
    rfl

namespace Reader

theorem bytes_append (bs rest : List UInt8) : bytes bs.length (bs ++ rest) = (.ok bs, rest) := by
  simp [bytes, holds_eq]

theorem blob_append {bs : List UInt8} (h : bs.length < 2 ^ 64) (rest : List UInt8) :
    blob (Writer.blob bs ++ rest) = (.ok bs, rest) := by
  unfold Writer.blob
  rw [List.append_assoc]
  refine (Step.bind_ok (length_ofNat h ?_)).trans (bytes_append bs rest)
  simp

theorem text_append {s : String} (h : s.toUTF8.toList.length < 2 ^ 64) (rest : List UInt8) :
    text (Writer.text s ++ rest) = (.ok s, rest) := by
  refine (Step.bind_ok (blob_append h rest)).trans ?_
  rw [fromUTF8?_eq_some.mpr rfl]
  rfl

theorem length_le_flatMap {α : Type} {item : α → List UInt8} {items : List α}
    (h : ∀ x ∈ items, item x ≠ []) : items.length ≤ (items.flatMap item).length := by
  induction items with
  | nil => exact Nat.le_refl 0
  | cons x items ih =>
    have hx := List.length_pos_iff.mpr (h x List.mem_cons_self)
    have hrest := ih fun y hy => h y (List.mem_cons_of_mem _ hy)
    rw [List.flatMap_cons, List.length_append, List.length_cons]
    omega

/-- Items that are read one by one are read as a list. -/
theorem times_append {α β : Type} {item : α → List UInt8} {r : Reader β} {f : α → β}
    {items : List α}
    (h : ∀ x ∈ items, ∀ rest, r (item x ++ rest) = (.ok (f x), rest)) (rest : List UInt8) :
    Step.times items.length r (items.flatMap item ++ rest) = (.ok (items.map f), rest) := by
  refine Step.times_eq_ok.mpr ⟨List.length_map f, ?_⟩
  induction items with
  | nil => exact .nil _
  | cons x items ih =>
    rw [List.flatMap_cons, List.append_assoc]
    exact .cons (h x List.mem_cons_self _) (ih fun y hy => h y (List.mem_cons_of_mem _ hy))

/-- The count in front of items is read back, as each takes a byte at least. -/
theorem length_listBytes {α : Type} {item : α → List UInt8} {items : List α}
    (hpos : ∀ x ∈ items, item x ≠ []) (hlt : (Entry.listBytes item items).length < 2 ^ 64)
    (rest : List UInt8) :
    length (Entry.listBytes item items ++ rest) = (.ok items.length, items.flatMap item ++ rest) := by
  unfold Entry.listBytes at hlt ⊢
  have hle := length_le_flatMap hpos
  rw [List.length_append] at hlt
  rw [List.append_assoc]
  apply length_ofNat (by omega)
  rw [List.length_append]
  omega

theorem times_listBytes {α β : Type} {item : α → List UInt8} {r : Reader β} {f : α → β}
    {items : List α} (hpos : ∀ x ∈ items, item x ≠ [])
    (h : ∀ x ∈ items, ∀ rest, r (item x ++ rest) = (.ok (f x), rest))
    (hlt : (Entry.listBytes item items).length < 2 ^ 64) (rest : List UInt8) :
    (do Step.times (← length) r : Reader (List β)) (Entry.listBytes item items ++ rest) =
      (.ok (items.map f), rest) :=
  (Step.bind_ok (length_listBytes hpos hlt rest)).trans (times_append h rest)

end Reader

theorem Varint.ofNat_ne_nil (n : Nat) : Varint.ofNat n ≠ [] := by
  rw [Varint.ofNat_eq, ← List.length_pos_iff, Varint.length_marked, List.length_pos_iff]
  exact Varint.digits_ne_nil n

theorem Varint.ofInt_ne_nil (i : Int) : Varint.ofInt i ≠ [] := by
  obtain ⟨hpos, _⟩ := Varint.sizeInt_spec i
  rw [Varint.ofInt_eq, ← List.length_pos_iff, Varint.length_marked,
    Varint.length_signedDigits]
  exact hpos

/-- Whether a number starts the entry of a type that has no meaning yet. -/
def IsFutureOpcode (opcode : Int) : Prop :=
  opcode < 0 ∧ Prim.ofOpcode? opcode = none ∧ opcode ∉ [Entry.optOpcode, Entry.vecOpcode,
    Entry.recordOpcode, Entry.variantOpcode, Entry.funcOpcode, Entry.serviceOpcode]

/-- What labels have to satisfy where they stand in an entry: they ascend, and an opcode of no
meaning is none that has one. -/
def Shape.Ascends : Shape → Prop
  | .record ids | .variant ids => ids.Pairwise (· < ·)
  | .service names => names.Pairwise (· < ·)
  | .future opcode _ => IsFutureOpcode opcode.toInt
  | _ => True

def Shape.Tidy : Shape → Prop
  | .record ids | .variant ids => ids.Nodup
  | .service names => names.Nodup
  | .future opcode _ => IsFutureOpcode opcode.toInt
  | _ => True

/-- What the type of a method has to be: a function, or a type of no known meaning. -/
def Shape.Callable : Shape → Prop
  | .func .. | .future .. => True
  | _ => False

theorem Composite.ascends_canonical {α : Type} {c : Composite α} (h : c.shape.Tidy) :
    c.canonical.shape.Ascends := by
  cases c with
  | record fs | variant fs | service ms => exact List.pairwise_map.mpr (sortBy_ascending h)
  | opt | vec | func => trivial
  | future opcode payload => exact h

namespace Entry

def unnamed : Entry → Entry
  | .record fs => .record (fs.map fun f => ⟨f.id, none, f.type⟩)
  | .variant fs => .variant (fs.map fun f => ⟨f.id, none, f.type⟩)
  | e => e

theorem unnamed_rel (e : Entry) : Composite.Rel Eq e e.unnamed := by
  have hfields : ∀ fs : List (Field Int),
      List.Forall₂ (Field.Rel Eq) fs (fs.map fun f => ⟨f.id, none, f.type⟩) := fun fs =>
    List.forall₂_map_right_iff.mpr (List.forall₂_same.mpr fun _ _ => ⟨rfl, rfl⟩)
  cases e with
  | record fs => exact .record (hfields fs)
  | variant fs => exact .variant (hfields fs)
  | opt | vec | func | service | future => exact .of_refl fun _ _ => rfl

def Fits (code : Int) : Prop := -2 ^ 63 ≤ code ∧ code < 2 ^ 63

section Lists
variable {rest : List UInt8}

theorem readCodes_append {codes : List Int} (h : ∀ code ∈ codes, Fits code)
    (hlt : (listBytes Varint.ofInt codes).length < 2 ^ 64) :
    readCodes (listBytes Varint.ofInt codes ++ rest) = (.ok codes, rest) := by
  have hread := Reader.times_listBytes (r := readCode) (f := id)
    (fun code _ => Varint.ofInt_ne_nil code)
    (fun code hc rest => readCode_ofInt (h code hc).1 (h code hc).2 rest) hlt rest
  rwa [List.map_id] at hread

theorem readMode_append (m : Mode) : readMode (m.byte :: rest) = (.ok m, rest) := by
  cases m <;> rfl

theorem readModes_append {modes : List Mode}
    (hlt : (listBytes (fun m : Mode => [m.byte]) modes).length < 2 ^ 64) :
    (do Step.times (← Reader.length) readMode : Reader (List Mode))
      (listBytes (fun m : Mode => [m.byte]) modes ++ rest) = (.ok modes, rest) := by
  have hread := Reader.times_listBytes (r := readMode) (f := id)
    (fun m _ => List.cons_ne_nil m.byte []) (fun m _ _ => readMode_append m) hlt rest
  rwa [List.map_id] at hread

/-- Items whose keys ascend are read back, each as its key and its code. -/
theorem readAscending_append {κ α : Type} [LE κ] [LT κ] [DecidableLE κ] [Std.IsLinearOrder κ]
    [Std.LawfulOrderLT κ] {readKey : Reader κ} {item : κ → Int → α} (key : α → κ)
    {fault : κ → TableFault} (keyBytes : κ → List UInt8) {code : α → Int}
    (hkey : ∀ k c, key (item k c) = k) (done : List α) {xs : List α}
    (hread : ∀ x ∈ xs, ∀ rest, readKey (keyBytes (key x) ++ rest) = (.ok (key x), rest))
    (hfits : ∀ x ∈ xs, Fits (code x))
    (hasc : ((done.map key).reverse ++ xs.map key).Pairwise (· < ·)) :
    readAscending readKey item key fault xs.length done
        (xs.flatMap (fun x => keyBytes (key x) ++ Varint.ofInt (code x)) ++ rest) =
      (.ok (done.reverse ++ xs.map fun x => item (key x) (code x)), rest) := by
  induction xs generalizing done with
  | nil =>
    rw [List.map_nil, List.append_nil]
    rfl
  | cons x xs ih =>
    obtain ⟨hlow, hhigh⟩ := hfits x List.mem_cons_self
    rw [List.flatMap_cons, List.append_assoc, List.append_assoc, List.length_cons, readAscending]
    refine (Step.bind_ok (hread x List.mem_cons_self _)).trans ?_
    have hrest := ih (item (key x) (code x) :: done) (fun y hy => hread y (List.mem_cons_of_mem _ hy))
      (fun y hy => hfits y (List.mem_cons_of_mem _ hy)) (by simpa [hkey] using hasc)
    rw [List.reverse_cons, List.append_assoc, List.singleton_append] at hrest
    cases done with
    | nil => exact (Step.bind_ok (readCode_ofInt hlow hhigh _)).trans hrest
    | cons last done =>
      have hlt : key last < key x :=
        (List.pairwise_append.mp hasc).2.2 _ (by simp) _ List.mem_cons_self
      dsimp only
      rw [if_neg (Std.not_le.mpr hlt)]
      exact (Step.bind_ok (readCode_ofInt hlow hhigh _)).trans hrest

theorem readFieldId_append (id : UInt32) :
    readFieldId (Varint.ofNat id.toNat ++ rest) = (.ok id, rest) := by
  have hid : id.toNat < 2 ^ 64 := Nat.lt_trans id.toNat_lt (by decide)
  refine (Step.bind_ok (Reader.varUInt64_ofNat hid rest)).trans ?_
  rw [UInt64.toNat_ofNat', Nat.mod_eq_of_lt hid, if_pos id.toNat_lt, UInt32.ofNat_toNat]
  rfl

theorem readFields_append {fs : List (Field Int)} (hfits : ∀ f ∈ fs, Fits f.type)
    (hasc : fs.Pairwise fun f g => f.id < g.id)
    (hlt : (listBytes fieldBytes fs).length < 2 ^ 64) :
    readFields (listBytes fieldBytes fs ++ rest) =
      (.ok (fs.map fun f => ⟨f.id, none, f.type⟩), rest) := by
  have hpos : ∀ f ∈ fs, fieldBytes f ≠ [] := fun f _ =>
    List.append_ne_nil_of_left_ne_nil (Varint.ofNat_ne_nil _) _
  refine (Step.bind_ok (Reader.length_listBytes hpos hlt rest)).trans ?_
  have hids : (fs.map (·.id)).Pairwise (· < ·) := List.pairwise_map.mpr hasc
  rw [readFieldsAfter_eq]
  exact readAscending_append Field.id (fun id => Varint.ofNat id.toNat) (fun _ _ => rfl) []
    (fun f _ _ => readFieldId_append f.id) hfits hids

theorem readMethods_append {ms : List (Method Int)} (hfits : ∀ m ∈ ms, Fits m.type)
    (hasc : ms.Pairwise fun m m' => m.name < m'.name)
    (hlt : (listBytes methodBytes ms).length < 2 ^ 64) :
    readMethods (listBytes methodBytes ms ++ rest) = (.ok ms, rest) := by
  have hpos : ∀ m ∈ ms, methodBytes m ≠ [] := fun m _ =>
    List.append_ne_nil_of_right_ne_nil _ (Varint.ofInt_ne_nil _)
  refine (Step.bind_ok (Reader.length_listBytes hpos hlt rest)).trans ?_
  rw [listBytes, List.length_append] at hlt
  have hname : ∀ m ∈ ms, ∀ rest, Reader.text (Writer.text m.name ++ rest) = (.ok m.name, rest) := by
    intro m hm rest
    have hle : (methodBytes m).length ≤ (ms.flatMap methodBytes).length :=
      (List.sublist_flatten_of_mem (List.mem_map_of_mem hm)).length_le
    rw [methodBytes, List.length_append, Writer.text, Writer.blob, List.length_append] at hle
    exact Reader.text_append (by omega) rest
  have hnames : (ms.map (·.name)).Pairwise (· < ·) := List.pairwise_map.mpr hasc
  rw [readMethodsAfter_eq]
  refine (readAscending_append Method.name Writer.text (fun _ _ => rfl) [] hname hfits hnames).trans ?_
  exact congrArg (fun ms => (Except.ok ms, rest)) (List.map_id ms)

end Lists

/-- An opcode is read first, whatever is read after it. -/
theorem opcode_append {α : Type} {opcode : Int} (h : Fits opcode) {f : Int64 → Reader α}
    {bs : List UInt8} {r : Except Fault α × List UInt8}
    (hf : ∀ word : Int64, word.toInt = opcode → f word bs = r) :
    (Reader.varInt64 >>= f) (Varint.ofInt opcode ++ bs) = r :=
  (Step.bind_ok (Reader.varInt64_ofInt h.1 h.2 bs)).trans (hf _ (Int64.toInt_ofInt_of_le h.1 h.2))

/-- An entry that follows the rules for its labels is read back, without the names of fields. -/
theorem read_bytes {e : Entry} (hfits : ∀ code ∈ e.members, Fits code) (hasc : e.shape.Ascends)
    (hlt : e.bytes.length < 2 ^ 64) (rest : List UInt8) :
    read (e.bytes ++ rest) = (.ok e.unnamed, rest) := by
  cases e with
  | opt code | vec code =>
    obtain ⟨hlow, hhigh⟩ := hfits code List.mem_cons_self
    rw [bytes, List.append_assoc]
    refine opcode_append ⟨by decide, by decide⟩ fun word hword => ?_
    simp only [hword]
    exact Step.bind_ok (readCode_ofInt hlow hhigh rest)
  | record fs | variant fs =>
    rw [bytes, List.length_append] at hlt
    rw [bytes, List.append_assoc]
    refine opcode_append ⟨by decide, by decide⟩ fun word hword => ?_
    simp only [hword]
    exact Step.bind_ok (readFields_append (fun f hf => hfits _ (List.mem_map_of_mem hf))
      (List.pairwise_map.mp hasc) (by omega))
  | func args results modes =>
    rw [bytes, List.length_append, List.length_append, List.length_append] at hlt
    rw [bytes, List.append_assoc, List.append_assoc, List.append_assoc]
    refine opcode_append ⟨by decide, by decide⟩ fun word hword => ?_
    simp only [hword]
    refine (Step.bind_ok (readCodes_append (fun code hc => hfits code (List.mem_append_left _ hc))
      (by omega))).trans ?_
    refine (Step.bind_ok (readCodes_append (fun code hc => hfits code (List.mem_append_right _ hc))
      (by omega))).trans ?_
    obtain ⟨count, rest₁, hcount, hmodes⟩ :=
      Step.bind_eq_ok.mp (@readModes_append rest modes (by omega))
    exact (Step.bind_ok hcount).trans (Step.bind_ok hmodes)
  | service ms =>
    rw [bytes, List.length_append] at hlt
    rw [bytes, List.append_assoc]
    refine opcode_append ⟨by decide, by decide⟩ fun word hword => ?_
    simp only [hword]
    exact Step.bind_ok (readMethods_append (fun m hm => hfits _ (List.mem_map_of_mem hm))
      (List.pairwise_map.mp hasc) (by omega))
  | future opcode payload =>
    obtain ⟨hneg, hprim, hnot⟩ := hasc
    simp only [List.mem_cons, List.not_mem_nil, or_false, not_or] at hnot
    rw [bytes, List.length_append, Writer.blob, List.length_append] at hlt
    rw [bytes, List.append_assoc]
    refine (Step.bind_ok (Reader.varInt64_ofInt opcode.le_toInt opcode.toInt_lt _)).trans ?_
    simp only [Int64.ofInt_toInt, hnot, hprim, if_false, Option.isSome_none, Bool.false_eq_true,
      or_false, Int.not_le.mpr hneg]
    exact Step.bind_ok (Reader.blob_append (by omega) rest)

theorem length_listBytes_le {α : Type} {item : α → List UInt8} {items : List α} {b : Nat}
    (h : ∀ a ∈ items, (item a).length ≤ b) :
    (listBytes item items).length ≤ items.length + 1 + items.length * b := by
  have hsum : (items.flatMap item).length ≤ items.length * b := by
    induction items with
    | nil => simp
    | cons a items ih =>
      have hfirst := h a List.mem_cons_self
      have hrest := ih fun a' ha => h a' (List.mem_cons_of_mem _ ha)
      rw [List.flatMap_cons, List.length_append, List.length_cons, Nat.succ_mul]
      omega
  have hcount := Varint.length_ofNat_le items.length
  rw [listBytes, List.length_append]
  omega

theorem bytes_ne_nil (e : Entry) : e.bytes ≠ [] := by
  cases e <;> simp [bytes, Varint.ofInt_ne_nil]

theorem members_unnamed (e : Entry) : e.unnamed.members = e.members :=
  (List.forall₂_eq_eq_eq ▸ (unnamed_rel e).members).symm

theorem methods_unnamed (e : Entry) : e.unnamed.methods = e.methods := by
  cases e <;> rfl

theorem fits_of_known {count : Nat} {code : Int} (h : knownCode count code = true)
    (hcount : count < 2 ^ 63) : Fits code := by
  unfold knownCode at h
  split at h
  · rename_i hneg
    have hopcodes : ∀ p ∈ Prim.all, -2 ^ 63 ≤ p.opcode := by decide
    obtain ⟨p, hp⟩ := Option.isSome_iff_exists.mp h
    have hcode : p.opcode = code := by simpa using List.find?_some hp
    have hlow := hopcodes p (List.mem_of_find?_eq_some hp)
    exact ⟨by omega, by omega⟩
  · simp only [decide_eq_true_eq] at h
    exact ⟨by omega, by omega⟩

theorem isFunction_unnamed {entries : List Entry} {code : Int} :
    isFunction (entries.map unnamed).toArray code = isFunction entries.toArray code := by
  unfold isFunction
  rw [List.getElem?_toArray, List.getElem?_toArray, List.getElem?_map]
  cases entries[code.toNat]? with
  | none => rfl
  | some e => cases e <;> rfl

theorem checkMethods_eq_ok {entries : List Entry} :
    checkMethods entries.toArray = .ok () ↔
      ∀ e ∈ entries, ∀ m ∈ e.methods, isFunction entries.toArray m.type = true := by
  unfold checkMethods
  split
  · rename_i m hm
    refine ⟨nofun, fun h => ?_⟩
    obtain ⟨e, he, hme⟩ := List.mem_flatMap.mp (List.mem_of_find?_eq_some hm)
    have hnot := List.find?_some hm
    rw [h e he m hme] at hnot
    cases hnot
  · rename_i hnone
    refine ⟨fun _ e he m hm => ?_, fun _ => rfl⟩
    simpa using List.find?_eq_none.mp hnone m (List.mem_flatMap.mpr ⟨e, he, hm⟩)

end Entry

namespace Table

/-- Entries and codes that a reader has no reason to refuse: every code stands for something, and
every method for a function. -/
structure Presentable (entries : List Entry) (codes : List Int) : Prop where
  members : ∀ e ∈ entries, ∀ code ∈ e.members, Entry.knownCode entries.length code = true
  labels : ∀ e ∈ entries, e.shape.Ascends
  methods : ∀ e ∈ entries, ∀ m ∈ e.methods, Entry.isFunction entries.toArray m.type = true
  codes : ∀ code ∈ codes, Entry.knownCode entries.length code = true

theorem Presentable.ascends {entries : List Entry} {codes : List Int}
    (h : Presentable entries codes) : ∀ e ∈ entries.map Entry.unnamed, e.shape.Ascends := by
  intro e' he'
  obtain ⟨e, he, rfl⟩ := List.mem_map.mp he'
  rw [← e.unnamed_rel.shape_eq]
  exact h.labels e he

/-- Behind the tag such entries and codes are read as they were written, but for the names of
fields. -/
theorem announces_append {entries : List Entry} {codes : List Int} (h : Presentable entries codes)
    (hlt : (magic ++ Entry.listBytes Entry.bytes entries ++
      Entry.listBytes Varint.ofInt codes).length < 2 ^ 63) (rest : List UInt8) :
    Announces (magic ++ Entry.listBytes Entry.bytes entries ++ Entry.listBytes Varint.ofInt codes ++
      rest) (entries.map Entry.unnamed) codes rest := by
  rw [List.length_append, List.length_append] at hlt
  have hcount : entries.length < 2 ^ 63 := by
    have hle := Reader.length_le_flatMap fun e (_ : e ∈ entries) => e.bytes_ne_nil
    have hlist : (Entry.listBytes Entry.bytes entries).length =
        (Varint.ofNat entries.length).length + (entries.flatMap Entry.bytes).length :=
      List.length_append
    omega
  have hentry : ∀ e ∈ entries, ∀ rest, Entry.read (e.bytes ++ rest) = (.ok e.unnamed, rest) := by
    intro e he rest
    have hle : e.bytes.length ≤ (Entry.listBytes Entry.bytes entries).length := by
      unfold Entry.listBytes
      rw [List.length_append]
      apply Nat.le_add_left_of_le
      exact (List.sublist_flatten_of_mem (List.mem_map_of_mem he)).length_le
    exact Entry.read_bytes (fun code hc => Entry.fits_of_known (h.members e he code hc) hcount)
      (h.labels e he) (by omega) rest
  rw [List.append_assoc, List.append_assoc]
  have hlength : Reader.length (Entry.listBytes Entry.bytes entries ++
      (Entry.listBytes Varint.ofInt codes ++ rest)) = (.ok (entries.map Entry.unnamed).length,
        entries.flatMap Entry.bytes ++ (Entry.listBytes Varint.ofInt codes ++ rest)) := by
    rw [List.length_map]
    exact Reader.length_listBytes (fun e _ => e.bytes_ne_nil) (by omega) _
  exact .intro hlength (Step.times_eq_ok.mp (Reader.times_append hentry _)).2 (Entry.readCodes_append
    (fun code hc => Entry.fits_of_known (h.codes code hc) hcount) (by omega))

/-- What is announced and passes the checks is left to rebuilding. -/
theorem readPrelude_of_announces {bytes rest : List UInt8} {raw : List Entry} {codes : List Int}
    (h : Announces bytes raw codes rest)
    (hentries : ∀ e ∈ raw, Entry.checkCodes raw.length e.members = .ok ())
    (hmethods : Entry.checkMethods raw.toArray = .ok ())
    (hcodes : Entry.checkCodes raw.length codes = .ok ()) :
    readPrelude bytes = (rebuild raw.toArray codes, rest) := by
  cases h with
  | intro hcount hrun hread =>
    rw [readPrelude]
    refine (Step.bind_ok (Step.orFail_eq_ok.mpr (Reader.bytes_append magic _))).trans ?_
    rw [if_pos rfl]
    refine (Step.bind_ok hcount).trans ?_
    refine (Step.bind_ok (Step.times_eq_ok.mpr ⟨rfl, hrun⟩)).trans ?_
    simp only [forM_eq_ok.mpr hentries, hmethods, Step.ofExcept_ok_bind]
    refine (Step.bind_ok hread).trans ?_
    simp only [hcodes, Step.ofExcept_ok_bind]
    rfl

/-- Such a prelude is read to its end, and it is left to rebuilding whether there is a table. -/
theorem readPrelude_append {entries : List Entry} {codes : List Int} (h : Presentable entries codes)
    (hlt : (magic ++ Entry.listBytes Entry.bytes entries ++
      Entry.listBytes Varint.ofInt codes).length < 2 ^ 63) (rest : List UInt8) :
    readPrelude (magic ++ Entry.listBytes Entry.bytes entries ++
        Entry.listBytes Varint.ofInt codes ++ rest) =
      (rebuild (entries.map Entry.unnamed).toArray codes, rest) := by
  refine readPrelude_of_announces (announces_append h hlt rest) (fun e' he' => ?_)
    (Entry.checkMethods_eq_ok.mpr fun e' he' m hm => ?_) (checkCodes_eq_ok.mpr ?_)
  · obtain ⟨e, he, rfl⟩ := List.mem_map.mp he'
    rw [Entry.members_unnamed, List.length_map]
    exact checkCodes_eq_ok.mpr (h.members e he)
  · obtain ⟨e, he, rfl⟩ := List.mem_map.mp he'
    rw [Entry.methods_unnamed] at hm
    rw [Entry.isFunction_unnamed]
    exact h.methods e he m hm
  · rw [List.length_map]
    exact h.codes

end Table

end Didl
