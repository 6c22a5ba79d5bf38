import Didl.Proofs.RoundTrip
import Didl.Proofs.Verdict

namespace Didl

/-- Two byte strings that cannot be told apart by what comes after them: where both start some
input, they are one and leave the same. -/
def Delimited (bytes bytes' : List UInt8) : Prop :=
  ∀ rest rest', bytes ++ rest = bytes' ++ rest' → bytes = bytes' ∧ rest = rest'

namespace Delimited
variable {bs bs' cs cs' : List UInt8}

theorem of_length (h : bs.length = bs'.length) : Delimited bs bs' :=
  fun _ _ heq => List.append_inj heq h

theorem append (h : Delimited bs bs') (k : bs = bs' → Delimited cs cs') :
    Delimited (bs ++ cs) (bs' ++ cs') := by
  intro rest rest' heq
  rw [List.append_assoc, List.append_assoc] at heq
  obtain ⟨rfl, hrest⟩ := h _ _ heq
  obtain ⟨rfl, rfl⟩ := k rfl _ _ hrest
  exact ⟨rfl, rfl⟩

theorem cons (b : UInt8) (h : Delimited bs bs') : Delimited (b :: bs) (b :: bs') :=
  append (@of_length [b] [b] rfl) fun _ => h

theorem of_head_ne {b b' : UInt8} (h : b ≠ b') : Delimited (b :: bs) (b' :: bs') :=
  fun _ _ heq => absurd (List.cons.inj heq).1 h

/-- Strings put together from as many delimited pieces. -/
theorem flatMap {α β : Type} {f : α → List UInt8} {g : β → List UInt8} {as : List α} {bs : List β}
    (h : List.Forall₂ (fun a b => Delimited (f a) (g b)) as bs) :
    Delimited (as.flatMap f) (bs.flatMap g) := by
  induction h with
  | nil => exact of_length rfl
  | cons hab _ ih =>
    rw [List.flatMap_cons, List.flatMap_cons]
    exact hab.append fun _ => ih

theorem eq_of_isPrefix (h : Delimited bs bs') (hle : bs <+: bs') : bs' = bs := by
  obtain ⟨rest, hrest⟩ := hle
  exact (h rest [] (hrest.trans (List.append_nil bs').symm)).1.symm

end Delimited

namespace Varint

/-- The last group ends a number, so that a reader that takes enough groups finds both. -/
theorem delimited_marked {ds es : List Nat} (hd : ds ≠ []) (he : es ≠ []) (hds : ∀ d ∈ ds, d < 128)
    (hes : ∀ e ∈ es, e < 128) : Delimited (marked ds) (marked es) := by
  intro rest rest' heq
  have hleft := Reader.groups_marked hd hds (ds.length + es.length) [] rest
  have hright := Reader.groups_marked he hes (ds.length + es.length) [] rest'
  rw [heq] at hleft
  rcases hleft with ⟨_, hleft⟩ | ⟨hlong, _⟩
  · rcases hright with ⟨_, hright⟩ | ⟨hlong, _⟩
    · rw [hleft] at hright
      obtain rfl : rest = rest' := (Prod.mk.inj hright).2
      exact ⟨List.append_cancel_right heq, rfl⟩
    · omega
  · omega

theorem delimited_ofNat (n m : Nat) : Delimited (ofNat n) (ofNat m) := by
  rw [ofNat_eq, ofNat_eq]
  exact delimited_marked (digits_ne_nil n) (digits_ne_nil m) (digits_lt n) (digits_lt m)

theorem delimited_ofInt (i j : Int) : Delimited (ofInt i) (ofInt j) := by
  have hne : ∀ k, signedDigits (sizeInt k) k ≠ [] := by
    intro k
    rw [← List.length_pos_iff, length_signedDigits]
    exact (sizeInt_spec k).1
  rw [ofInt_eq, ofInt_eq]
  exact delimited_marked (hne i) (hne j) (signedDigits_lt _ i) (signedDigits_lt _ j)

/-- Different numbers take different bytes, which the reader of many enough groups tells apart. -/
theorem ofNat_inj {n m : Nat} (h : ofNat n = ofNat m) : n = m := by
  have hread : ∀ k, k = n ∨ k = m → Reader.groups ((digits n).length + (digits m).length) []
      (ofNat k) = (.ok ((digits k).map UInt8.ofNat), []) := by
    intro k hk
    have hgroups := Reader.groups_marked (digits_ne_nil k) (digits_lt k)
      ((digits n).length + (digits m).length) [] []
    rw [← ofNat_eq, List.append_nil] at hgroups
    rcases hgroups with ⟨_, hok⟩ | ⟨hlong, _⟩
    · exact hok
    · rcases hk with rfl | rfl <;> omega
  have hn := hread n (.inl rfl)
  rw [h, hread m (.inr rfl)] at hn
  have hdigits : (digits m).map UInt8.ofNat = (digits n).map UInt8.ofNat :=
    Except.ok.inj (Prod.mk.inj hn).1
  rw [← value_digits n, ← value_digits m, hdigits]

end Varint

theorem delimited_blob (bs bs' : List UInt8) : Delimited (Writer.blob bs) (Writer.blob bs') :=
  (Varint.delimited_ofNat _ _).append fun h => .of_length (Varint.ofNat_inj h)

theorem delimited_reference (id id' : Option (List UInt8)) :
    Delimited (referenceBytes id) (referenceBytes id') := by
  cases id <;> cases id'
  · exact .of_length rfl
  · exact .of_head_ne (by decide)
  · exact .of_head_ne (by decide)
  · exact (delimited_blob _ _).cons 1

theorem delimited_func (ref ref' : Option FuncRef) :
    Delimited (funcBytes ref) (funcBytes ref') := by
  cases ref <;> cases ref'
  · exact .of_length rfl
  · exact .of_head_ne (by decide)
  · exact .of_head_ne (by decide)
  · exact ((delimited_reference _ _).append fun _ => delimited_blob _ _).cons 1

theorem Prim.delimited {p : Prim} {v w : Value} {bytes bytes' : List UInt8}
    (h : p.bytes? v = some bytes) (h' : p.bytes? w = some bytes') : Delimited bytes bytes' := by
  cases p <;> cases v <;> cases h <;> cases w <;> cases h'
  case nat.nat.refl.nat.refl => exact Varint.delimited_ofNat _ _
  case int.int.refl.int.refl => exact Varint.delimited_ofInt _ _
  case text.text.refl.text.refl => exact delimited_blob _ _
  case principal.principal.refl.principal.refl => exact delimited_reference _ _
  all_goals exact .of_length (by simp only [Writer.flag, List.length_cons, List.length_nil, Reader.length_littleEndian])

theorem Composite.delimited {α : Type} {c : Composite α} {v w : Value} {bytes bytes' : List UInt8}
    (h : c.bytes? v = some bytes) (h' : c.bytes? w = some bytes') : Delimited bytes bytes' := by
  cases c <;> cases v <;> cases h <;> cases w <;> cases h'
  · exact delimited_func _ _
  · exact delimited_reference _ _
  · exact delimited_blob _ _

namespace Value
open Table (loop loop_built)

section Inversion
variable {t : Table} {type inner : Ty} {fields : List (Field Ty)} {v : Value} {bytes : List UInt8}

theorem encodes_reserved (h : Encodes t v type bytes)
    (hhead : t.follow type = .ok (.prim .reserved)) : bytes = [] := by
  cases h
  case prim p hhead' hbytes =>
    rw [hhead] at hhead'
    cases hhead'
    cases v <;> cases hbytes
  all_goals simp_all

theorem encodes_prim (h : Encodes t v type bytes) {p : Prim} (hp : p ≠ .reserved)
    (hhead : t.follow type = .ok (.prim p)) : p.bytes? v = some bytes := by
  cases h <;> simp_all

theorem encodes_opt (h : Encodes t v type bytes)
    (hhead : t.follow type = .ok (.composite (.opt inner))) :
    bytes = [0] ∨ ∃ w bs, bytes = 1 :: bs ∧ Encodes t w inner bs := by
  cases h
  case none => exact .inl rfl
  case some w inner' bs hw hhead' =>
    rw [hhead] at hhead'
    cases hhead'
    exact .inr ⟨w, bs, rfl, hw⟩
  all_goals simp_all

theorem encodes_vec (h : Encodes t v type bytes)
    (hhead : t.follow type = .ok (.composite (.vec inner))) :
    (t.isByte inner = true ∧ ∃ bs, bytes = Writer.blob bs) ∨
      ∃ parts : List (Value × List UInt8), t.isByte inner = false ∧
        bytes = Varint.ofNat parts.length ++ parts.flatMap Prod.snd ∧
        ∀ p ∈ parts, Encodes t p.1 inner p.2 := by
  cases h
  case blob bs inner' hbyte hhead' =>
    rw [hhead] at hhead'
    cases hhead'
    exact .inl ⟨hbyte, bs, rfl⟩
  case vec inner' parts hparts hhead' =>
    rw [hhead] at hhead'
    cases hhead'
    cases hbyte : t.isByte inner with
    | false => exact .inr ⟨parts, rfl, rfl, hparts⟩
    | true =>
      -- Elements that are bytes are written as the bytes themselves.
      obtain ⟨hbytes, _⟩ := encodes_bytes hbyte hparts
      refine .inl ⟨rfl, (parts.map Prod.fst).map toByte, ?_⟩
      rw [hbytes, Writer.blob, List.length_map, List.length_map]
  all_goals simp_all

theorem encodes_record (h : Encodes t v type bytes)
    (hhead : t.follow type = .ok (.composite (.record fields))) :
    ∃ parts : List (Field Ty × Value × List UInt8), parts.map Prod.fst = sortBy (·.id) fields ∧
      bytes = parts.flatMap (·.2.2) ∧ ∀ p ∈ parts, Encodes t p.2.1 p.1.type p.2.2 := by
  cases h
  case record fields' parts hids hfields hparts hhead' =>
    rw [hhead] at hhead'
    cases hhead'
    exact ⟨parts, hfields, rfl, hparts⟩
  all_goals simp_all

theorem encodes_variant (h : Encodes t v type bytes)
    (hhead : t.follow type = .ok (.composite (.variant fields))) :
    ∃ id f w bs, findField? fields id = some f ∧ bytes = Varint.ofNat id.toNat ++ bs ∧
      Encodes t w f.type bs := by
  cases h
  case variant fields' f id w bs hf hw hhead' =>
    rw [hhead] at hhead'
    cases hhead'
    exact ⟨id, f, w, bs, hf, rfl, hw⟩
  all_goals simp_all

theorem bytes_of_encodes_flat {c : Composite Ty} {x : Reader Value} (h : Encodes t v type bytes)
    (hhead : t.follow type = .ok (.composite c)) (hx : c.reader? = some x) :
    c.bytes? v = some bytes := by
  cases h <;> cases hhead.symm.trans ‹t.follow _ = _› <;> first | rfl | cases hx

end Inversion

/-- Pieces that stand for the same fields in the same order. -/
theorem forall₂_of_map_eq {α β γ : Type} {f : α → γ} {g : β → γ} {P : α → β → Prop} {as : List α}
    {bs : List β} (h : as.map f = bs.map g) (hP : ∀ a ∈ as, ∀ b ∈ bs, f a = g b → P a b) :
    List.Forall₂ P as bs := by
  have heq : List.Forall₂ (fun a b => f a = g b) as bs := by
    have hrefl : List.Forall₂ Eq (as.map f) (bs.map g) := h ▸ List.forall₂_refl _
    exact List.forall₂_map_right_iff.mp (List.forall₂_map_left_iff.mp hrefl)
  refine List.forall₂_iff_zip.mpr ⟨heq.length_eq, fun {a b} hab => ?_⟩
  obtain ⟨ha, hb⟩ := List.of_mem_zip hab
  exact hP a ha b hb (List.forall₂_zip heq hab)

/-- No encoding of a value goes on after that of another value of the same type has ended. -/
theorem Encodes.delimited {t : Table} {v w : Value} {type : Ty} {bytes bytes' : List UInt8}
    (h : Encodes t v type bytes) (h' : Encodes t w type bytes') : Delimited bytes bytes' := by
  induction h generalizing w bytes' with
  | reserved hhead =>
    rw [encodes_reserved h' hhead]
    exact .of_length rfl
  | @prim v type p bytes hhead hbytes =>
    by_cases hp : p = .reserved
    · subst hp
      cases v <;> cases hbytes
    · exact p.delimited hbytes (encodes_prim h' hp hhead)
  | none hhead =>
    rcases encodes_opt h' hhead with rfl | ⟨_, _, rfl, _⟩
    · exact .of_length rfl
    · exact .of_head_ne (by decide)
  | some hhead _ ih =>
    rcases encodes_opt h' hhead with rfl | ⟨_, _, rfl, hw⟩
    · exact .of_head_ne (by decide)
    · exact (ih hw).cons 1
  | blob hhead hbyte =>
    rcases encodes_vec h' hhead with ⟨_, _, rfl⟩ | ⟨_, hnot, _⟩
    · exact delimited_blob _ _
    · rw [hbyte] at hnot
      cases hnot
  | @vec type inner parts hhead hparts ih =>
    rcases encodes_vec (.vec hhead hparts) hhead with ⟨hbyte, bs, hbs⟩ | ⟨_, hbyte, _⟩
    · rcases encodes_vec h' hhead with ⟨_, bs', rfl⟩ | ⟨_, hnot, _⟩
      · rw [hbs]
        exact delimited_blob _ _
      · rw [hbyte] at hnot
        cases hnot
    · rcases encodes_vec h' hhead with ⟨hnot, _⟩ | ⟨parts', _, rfl, hparts'⟩
      · rw [hbyte] at hnot
        cases hnot
      · refine (Varint.delimited_ofNat _ _).append fun hcount => .flatMap ?_
        refine List.forall₂_iff_zip.mpr ⟨Varint.ofNat_inj hcount, fun {p q} hpq => ?_⟩
        obtain ⟨hp, hq⟩ := List.of_mem_zip hpq
        exact ih p hp (hparts' q hq)
  | @record type fields parts hhead hids hfields hparts ih =>
    obtain ⟨parts', hfields', rfl, hparts'⟩ := encodes_record h' hhead
    refine .flatMap (forall₂_of_map_eq (hfields.trans hfields'.symm) fun p hp q hq hfield => ?_)
    have hq := hparts' q hq
    rw [← hfield] at hq
    exact ih p hp hq
  | variant hhead hf _ ih =>
    obtain ⟨id', f', w', bs', hf', rfl, hw'⟩ := encodes_variant h' hhead
    refine (Varint.delimited_ofNat _ _).append fun htag => ?_
    obtain rfl := UInt32.toNat_inj.mp (Varint.ofNat_inj htag)
    rw [hf] at hf'
    cases hf'
    exact ih hw'
  | func ref hhead =>
    exact Composite.delimited (v := .func ref) rfl (bytes_of_encodes_flat h' hhead rfl)
  | service id hhead =>
    exact Composite.delimited (v := .service id) rfl (bytes_of_encodes_flat h' hhead rfl)
  | future bs hhead =>
    exact Composite.delimited (v := .future bs) rfl (bytes_of_encodes_flat h' hhead rfl)

/-- A value that was written is read back, in the form in which a reader holds it, whatever comes
after it, and the reader stops where it ends, as long as it is within the reader's limits. What
another value of the type is written as is no longer and no shorter, or it differs before. -/
theorem reader_write {t : Table} (ht : t.Made) {type : Ty} (hc : t.Closed type)
    (hids : t.UniqueIds type) {v : Value} (hv : v.Ordered) {out out' : Array UInt8}
    (h : v.write t type out = (.ok (), out')) :
    ∃ bytes, out'.toList = out.toList ++ bytes ∧
      (bytes.length < 2 ^ 63 → v.depth ≤ maxDepth → zeroItems t v type ≤ maxZeroSized →
        v.ShortNumbers → ∀ rest, reader t type (bytes ++ rest) = (.ok (normal t v type), rest)) ∧
      ∀ (w : Value) (more more' : Array UInt8) (bytes' : List UInt8), w.Ordered →
        w.write t type more = (.ok (), more') → more'.toList = more.toList ++ bytes' →
        bytes <+: bytes' → bytes' = bytes := by
  obtain ⟨bytes, hbytes, hout⟩ := encodes_of_write hids hv h
  refine ⟨bytes, hout, fun hlt hdepth hzero hshort rest => ?_, ?_⟩
  · have hyields := givesBack_of_encodes ht.sound hbytes hc hlt (Nat.le_refl _)
    rcases hyields maxZeroSized rest (Nat.le_refl _) with ⟨_, hok⟩ | ⟨hnot, _⟩
    · exact Step.bind_ok hok
    · exact absurd ⟨hzero, Nat.lt_succ_of_le hdepth, hshort⟩ hnot
  · intro w more more' bytes' hw hwrite hmore hle
    obtain ⟨bs, hbs, hmore'⟩ := encodes_of_write hids hw hwrite
    obtain rfl : bs = bytes' := List.append_cancel_left (hmore'.symm.trans hmore)
    exact (hbytes.delimited hbs).eq_of_isPrefix hle

def crossed : Ty := .composite (.record [⟨7, none, .blob⟩, ⟨3, none, .named "a"⟩])

theorem crossed_reach {u : Ty} (h : (loop "a").Reach crossed u) :
    u = crossed ∨ u = .named "a" ∨ u = .blob ∨ u = .prim .nat8 := by
  refine h.invariant (P := fun u => u = crossed ∨ u = .named "a" ∨ u = .blob ∨ u = .prim .nat8) ?_
    (.inl rfl)
  rintro _ f (rfl | rfl | rfl | rfl) hf v hv <;> cases hf
  · rcases List.mem_cons.mp hv with rfl | hv
    · exact .inr (.inr (.inl rfl))
    · exact .inr (.inl (List.mem_singleton.mp hv))
  · exact .inr (.inl (List.mem_singleton.mp hv))
  · exact .inr (.inr (.inr (List.mem_singleton.mp hv)))
  · cases hv

/-- The bytes of the field with the lower number come first, and those of a `vec nat8` are read
back at once. -/
theorem reader_write_crossed :
    ∃ out bytes, (Value.record [(3, .opt (some (.opt none))), (7, .vec [.nat8 9])]).write (loop "a")
        crossed #[] = (.ok (), out) ∧ out.toList = bytes ∧
      (∀ rest, reader (loop "a") crossed (bytes ++ rest) =
        (.ok (.record [(3, .opt (some (.opt none))), (7, .blob [9])]), rest)) ∧
      ∀ (w : Value) (more more' : Array UInt8) (bytes' : List UInt8), w.Ordered →
        w.write (loop "a") crossed more = (.ok (), more') → more'.toList = more.toList ++ bytes' →
        bytes <+: bytes' → bytes' = bytes := by
  have hclosed : (loop "a").Closed crossed := by
    intro x hx
    rcases crossed_reach hx with h | h | h | h <;> cases h
    rfl
  have hids : (loop "a").UniqueIds crossed := by
    intro u fields hu hfields
    rcases crossed_reach hu with rfl | rfl | rfl | rfl <;> rcases hfields with hf | hf <;> cases hf
    decide
  have hnone : (Value.opt none).children = [] := rfl
  have hbyte : (Value.nat8 9).children = [] := rfl
  have hordered : (Value.record [(3, .opt (some (.opt none))), (7, .vec [.nat8 9])]).Ordered := by
    have hsome : (Value.opt (some (.opt none))).Ordered :=
      .of_children (by simpa [children] using Ordered.of_leaf hnone (by simp)) (by simp)
    have hbytes : (Value.vec [.nat8 9]).Ordered :=
      .of_children (by simpa [children] using Ordered.of_leaf hbyte (by simp)) (by simp)
    refine .of_children (by simpa [children] using ⟨hsome, hbytes⟩) fun fields hf => ?_
    cases hf
    decide
  have hnumbers : (Value.record [(3, .opt (some (.opt none))), (7, .vec [.nat8 9])]).ShortNumbers := by
    have hsome : (Value.opt (some (.opt none))).ShortNumbers :=
      .of_children (by simpa [children] using ShortNumbers.of_leaf hnone (by simp) (by simp))
        (by simp) (by simp)
    have hbytes : (Value.vec [.nat8 9]).ShortNumbers :=
      .of_children (by simpa [children] using ShortNumbers.of_leaf hbyte (by simp) (by simp))
        (by simp) (by simp)
    exact .of_children (by simpa [children] using ⟨hsome, hbytes⟩) (by simp) (by simp)
  have hwrite : (Value.record [(3, .opt (some (.opt none))), (7, .vec [.nat8 9])]).write (loop "a")
      crossed #[] = (.ok (), #[1, 0, 1, 9]) := by cbv
  obtain ⟨bytes, hout, hread, hdelimited⟩ :=
    reader_write (.built (loop_built "a")) hclosed hids hordered hwrite
  obtain rfl : [1, 0, 1, 9] = bytes := hout
  refine ⟨_, _, hwrite, rfl, ?_, hdelimited⟩
  have hnormal : normal (loop "a") (.record [(3, .opt (some (.opt none))), (7, .vec [.nat8 9])]) crossed =
      .record [(3, .opt (some (.opt none))), (7, .blob [9])] := by cbv
  rw [← hnormal]
  refine hread (by decide) ?_ ?_ hnumbers
  · rw [show depth _ = 2 by cbv]
    decide
  · rw [show zeroItems _ _ _ = 0 by cbv]
    decide

end Value

end Didl
