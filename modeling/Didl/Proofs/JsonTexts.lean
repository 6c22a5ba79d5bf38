import Didl.Json
import Didl.Proofs.Rounding

namespace Didl

theorem toList_foldl_append {α : Type} (f : α → String) (as : List α) (out : String) :
    (as.foldl (fun out a => out ++ f a) out).toList =
      out.toList ++ as.flatMap fun a => (f a).toList := by
  induction as generalizing out with
  | nil => simp
  | cons a as ih =>
    rw [List.foldl_cons, ih, String.toList_append, List.flatMap_cons, List.append_assoc]

section Hex

theorem hexDigit_injective {m n : Nat} (hm : m < 16) (hn : n < 16)
    (h : hexDigit m = hexDigit n) : m = n := by
  have hall : ∀ m < 16, ∀ n < 16, hexDigit m = hexDigit n → m = n := by decide
  exact hall m hm n hn h

theorem toList_hexByte (b : UInt8) :
    (hexByte b).toList = [hexDigit (b.toNat / 16), hexDigit (b.toNat % 16)] := by
  rw [hexByte, String.toList_ofList]

theorem hexByte_injective {a b : UInt8} (hhigh : hexDigit (a.toNat / 16) = hexDigit (b.toNat / 16))
    (hlow : hexDigit (a.toNat % 16) = hexDigit (b.toNat % 16)) : a = b := by
  have ha := a.toNat_lt
  have hb := b.toNat_lt
  have hdiv := hexDigit_injective (by omega) (by omega) hhigh
  have hmod := hexDigit_injective (by omega) (by omega) hlow
  exact UInt8.toNat_inj.mp (by omega)

theorem hex_injective {as bs : List UInt8} (h : hex as = hex bs) : as = bs := by
  replace h := congrArg String.toList h
  simp only [hex, toList_foldl_append, toList_hexByte, String.toList_empty, List.nil_append] at h
  induction as generalizing bs with
  | nil => cases bs with
    | nil => rfl
    | cons b bs => cases h
  | cons a as ih => cases bs with
    | nil => cases h
    | cons b bs =>
      obtain ⟨hhigh, h⟩ := List.cons.inj h
      obtain ⟨hlow, h⟩ := List.cons.inj h
      rw [hexByte_injective hhigh hlow, ih h]

end Hex

namespace Text

def quoted (cs : List Char) : List Char := cs.flatMap fun c => (jsonChar c).toList

theorem toList_quote (s : String) : (quote s).toList = '"' :: (quoted s.toList ++ ['"']) := by
  rw [quote, String.toList_append, toList_foldl_append]
  rfl

def hexValue (c : Char) : Nat := if c.isDigit then c.toNat - 48 else c.toNat - 87

def readEscape : List Char → Option (Char × List Char)
  | '"' :: cs => some ('"', cs)
  | '\\' :: cs => some ('\\', cs)
  | 'b' :: cs => some ('\x08', cs)
  | 'f' :: cs => some ('\x0c', cs)
  | 'n' :: cs => some ('\n', cs)
  | 'r' :: cs => some ('\r', cs)
  | 't' :: cs => some ('\t', cs)
  | 'u' :: '0' :: '0' :: high :: low :: cs =>
    some (Char.ofNat (16 * hexValue high + hexValue low), cs)
  | _ => none

def readChar : List Char → Option (Char × List Char)
  | '\\' :: cs => readEscape cs
  | '"' :: _ => none
  | c :: cs => some (c, cs)
  | [] => none

/-- A character of a JSON string is read back, whatever follows it. -/
theorem readChar_jsonChar (c : Char) (rest : List Char) :
    readChar ((jsonChar c).toList ++ rest) = some (c, rest) := by
  unfold jsonChar
  split_ifs with hquote hslash hb hf hn hr ht hcontrol
  · rw [beq_iff_eq.mp hquote]; rfl
  · rw [beq_iff_eq.mp hslash]; rfl
  · rw [beq_iff_eq.mp hb]; rfl
  · rw [beq_iff_eq.mp hf]; rfl
  · rw [beq_iff_eq.mp hn]; rfl
  · rw [beq_iff_eq.mp hr]; rfl
  · rw [beq_iff_eq.mp ht]; rfl
  · rw [String.toList_append, toList_hexByte, UInt8.toNat_ofNat_of_lt' (hcontrol.trans (by decide))]
    have hdigit : ∀ n < 16, hexValue (hexDigit n) = n := by decide
    have hchar : 16 * hexValue (hexDigit (c.toNat / 16)) + hexValue (hexDigit (c.toNat % 16)) =
        c.toNat := by
      rw [hdigit _ (by omega), hdigit _ (by omega), Nat.div_add_mod]
    change some (Char.ofNat _, rest) = _
    rw [hchar, Char.ofNat_toNat]
  · rw [Char.toString, String.toList_singleton, List.singleton_append, readChar]
    · simpa using hslash
    · simpa using hquote

/-- A JSON string ends in one way. -/
theorem quoted_append_inj {cs cs' rest rest' : List Char}
    (h : quoted cs ++ '"' :: rest = quoted cs' ++ '"' :: rest') : cs = cs' ∧ rest = rest' := by
  have hread : ∀ (c : Char) (cs rest : List Char),
      readChar (quoted (c :: cs) ++ rest) = some (c, quoted cs ++ rest) := by
    intro c cs rest
    rw [quoted, List.flatMap_cons, List.append_assoc, readChar_jsonChar]
    rfl
  induction cs generalizing cs' with
  | nil => cases cs' with
    | nil => exact ⟨rfl, (List.cons.inj h).2⟩
    | cons c' cs' =>
      have hnone := (congrArg readChar h).trans (hread c' cs' _)
      cases hnone
  | cons c cs ih => cases cs' with
    | nil =>
      have hnone := (hread c cs _).symm.trans (congrArg readChar h)
      cases hnone
    | cons c' cs' =>
      have hsome := (hread c cs _).symm.trans ((congrArg readChar h).trans (hread c' cs' _))
      obtain ⟨rfl, hrest⟩ := Prod.mk.inj (Option.some.inj hsome)
      obtain ⟨rfl, rfl⟩ := ih hrest
      exact ⟨rfl, rfl⟩

end Text

namespace Json

inductive Numeric : Json → Prop
  | null : Numeric .null
  | bool (b : Bool) : Numeric (.bool b)
  | number (i : Int) : Numeric (.number i)
  | float {bits : UInt64} : Decimal.Format.double.Finite bits.toNat → Numeric (.float bits)
  | string (s : String) : Numeric (.string s)
  | array {items : List Json} : (∀ item ∈ items, Numeric item) → Numeric (.array items)
  | fields {members : List (String × Json)} :
      (∀ m ∈ members, Numeric m.2) → Numeric (.fields members)

section Append

mutual

theorem appendCompact_eq (out : String) (j : Json) : appendCompact out j = out ++ compact j := by
  cases j with
  | null | number | float | string => simp [compact, appendCompact]
  | bool b => simp [compact, appendCompact]
  | array items =>
    cases items with
    | nil => simp [compact, appendCompact]
    | cons item items =>
      rw [compact, appendCompact, appendCompact, appendItems_eq, appendCompact_eq (out ++ "["),
        appendItems_eq (appendCompact _ _), appendCompact_eq ("" ++ "[")]
      simp [String.append_assoc]
  | fields members =>
    cases members with
    | nil => simp [compact, appendCompact]
    | cons m members =>
      obtain ⟨key, v⟩ := m
      rw [compact, appendCompact, appendCompact, appendMembers_eq,
        appendCompact_eq (out ++ _ ++ _ ++ _), appendMembers_eq (appendCompact _ _),
        appendCompact_eq ("" ++ _ ++ _ ++ _)]
      simp [String.append_assoc]

theorem appendItems_eq (out : String) (items : List Json) :
    appendItems out items = out ++ appendItems "" items := by
  cases items with
  | nil => simp [appendItems]
  | cons item items =>
    rw [appendItems, appendItems, appendItems_eq, appendCompact_eq,
      appendItems_eq (appendCompact ("" ++ _) _), appendCompact_eq ("" ++ _)]
    simp [String.append_assoc]

theorem appendMembers_eq (out : String) (members : List (String × Json)) :
    appendMembers out members = out ++ appendMembers "" members := by
  cases members with
  | nil => simp [appendMembers]
  | cons m members =>
    obtain ⟨key, v⟩ := m
    rw [appendMembers, appendMembers, appendMembers_eq, appendCompact_eq,
      appendMembers_eq (appendCompact ("" ++ _ ++ _ ++ _) _), appendCompact_eq ("" ++ _ ++ _ ++ _)]
    simp [String.append_assoc]

end

end Append

open Decimal (isNumberChar)

/-- What cannot be taken for more of a number. -/
def Stops (rest : List Char) : Prop := ∀ c ∈ rest.head?, isNumberChar c = false

section Numbers
variable {text text' rest rest' : List Char}

theorem takeWhile_number (htext : ∀ c ∈ text, isNumberChar c = true) (hrest : Stops rest) :
    (text ++ rest).takeWhile isNumberChar = text := by
  rw [List.takeWhile_append_of_pos htext]
  cases rest with
  | nil => simp
  | cons c rest => rw [List.takeWhile_cons_of_neg (by simp [hrest c rfl]), List.append_nil]

/-- A number ends where its characters do. -/
theorem number_append_inj (htext : ∀ c ∈ text, isNumberChar c = true)
    (htext' : ∀ c ∈ text', isNumberChar c = true) (hrest : Stops rest) (hrest' : Stops rest')
    (h : text ++ rest = text' ++ rest') : text = text' ∧ rest = rest' := by
  have heq : text = text' := by
    rw [← takeWhile_number htext hrest, h, takeWhile_number htext' hrest']
  rw [heq] at h
  exact ⟨heq, List.append_cancel_left h⟩

end Numbers

section Enclosed
variable {α : Type} (text : α → List Char) (first last : Char)

def separated (as : List α) : List Char := as.flatMap fun a => ',' :: text a

def enclosed : List α → List Char
  | [] => [first, last]
  | a :: as => first :: (text a ++ (separated text as ++ [last]))

variable {text first last} {as bs : List α} {rest rest' : List Char}

theorem stops_separated (hlast : isNumberChar last = false) (as : List α) (rest : List Char) :
    Stops (separated text as ++ last :: rest) := by
  cases as with
  | nil => simpa [Stops, separated] using hlast
  | cons a as => simp [Stops, separated, isNumberChar]

variable (hlast : isNumberChar last = false) (hcomma : last ≠ ',')
  (htext : ∀ a ∈ as, ∀ b ∈ bs, ∀ {rest rest'}, Stops rest → Stops rest' →
    text a ++ rest = text b ++ rest' → a = b ∧ rest = rest')
include hlast hcomma htext

theorem separated_append_inj
    (h : separated text as ++ last :: rest = separated text bs ++ last :: rest') :
    as = bs ∧ rest = rest' := by
  induction as generalizing bs with
  | nil => cases bs with
    | nil => exact ⟨rfl, (List.cons.inj h).2⟩
    | cons b bs => exact absurd (List.cons.inj h).1 hcomma
  | cons a as ih => cases bs with
    | nil => exact absurd (List.cons.inj h).1.symm hcomma
    | cons b bs =>
      simp only [separated, List.flatMap_cons, List.cons_append, List.append_assoc] at h
      obtain ⟨hab, hmore⟩ := htext a List.mem_cons_self b List.mem_cons_self
        (stops_separated hlast as rest) (stops_separated hlast bs rest') (List.cons.inj h).2
      obtain ⟨rfl, rfl⟩ := ih (fun a ha b hb =>
        htext a (List.mem_cons_of_mem _ ha) b (List.mem_cons_of_mem _ hb)) hmore
      exact ⟨congrArg (· :: as) hab, rfl⟩

/-- What is enclosed is told by its text, if each part is told by its own. -/
theorem enclosed_append_inj (hhead : ∀ a ∈ as ++ bs, ∃ c cs, text a = c :: cs ∧ c ≠ last)
    (h : enclosed text first last as ++ rest = enclosed text first last bs ++ rest') :
    as = bs ∧ rest = rest' := by
  have hne : ∀ a ∈ as ++ bs, ∀ {more rest}, text a ++ more ≠ last :: rest := by
    intro a ha more rest heq
    obtain ⟨c, cs, hc, hne⟩ := hhead a ha
    rw [hc] at heq
    exact hne (List.cons.inj heq).1
  cases as with
  | nil => cases bs with
    | nil => exact ⟨rfl, by simpa [enclosed] using h⟩
    | cons b bs =>
      simp only [enclosed, List.cons_append, List.append_assoc, List.nil_append] at h
      exact absurd (List.cons.inj h).2.symm (hne b (by simp))
  | cons a as => cases bs with
    | nil =>
      simp only [enclosed, List.cons_append, List.append_assoc, List.nil_append] at h
      exact absurd (List.cons.inj h).2 (hne a (by simp))
    | cons b bs =>
      simp only [enclosed, List.cons_append, List.append_assoc, List.nil_append] at h
      obtain ⟨hab, hmore⟩ := htext a List.mem_cons_self b List.mem_cons_self
        (stops_separated hlast as rest) (stops_separated hlast bs rest') (List.cons.inj h).2
      obtain ⟨rfl, rfl⟩ := separated_append_inj hlast hcomma (fun a ha b hb =>
        htext a (List.mem_cons_of_mem _ ha) b (List.mem_cons_of_mem _ hb)) hmore
      exact ⟨congrArg (· :: as) hab, rfl⟩

end Enclosed

section Chars

def chars (j : Json) : List Char := j.compact.toList

def memberChars (m : String × Json) : List Char :=
  '"' :: (Text.quoted m.1.toList ++ '"' :: ':' :: chars m.2)

theorem chars_string (s : String) : chars (.string s) = '"' :: (Text.quoted s.toList ++ ['"']) := by
  simp [chars, compact, appendCompact, Text.toList_quote]

theorem toList_appendItems (items : List Json) :
    (appendItems "" items).toList = separated chars items := by
  induction items with
  | nil => rfl
  | cons item items ih =>
    rw [appendItems, appendItems_eq, appendCompact_eq, String.toList_append, ih]
    simp [separated, chars]

theorem toList_appendMembers (members : List (String × Json)) :
    (appendMembers "" members).toList = separated memberChars members := by
  induction members with
  | nil => rfl
  | cons m members ih =>
    obtain ⟨key, v⟩ := m
    rw [appendMembers, appendMembers_eq, appendCompact_eq, String.toList_append, ih]
    simp [separated, chars, memberChars, Text.toList_quote]

theorem chars_array (items : List Json) : chars (.array items) = enclosed chars '[' ']' items := by
  cases items with
  | nil => rfl
  | cons item items =>
    rw [chars, compact, appendCompact, appendItems_eq, appendCompact_eq]
    simp [enclosed, toList_appendItems, chars]

theorem chars_fields (members : List (String × Json)) :
    chars (.fields members) = enclosed memberChars '\x7b' '\x7d' members := by
  cases members with
  | nil => rfl
  | cons m members =>
    obtain ⟨key, v⟩ := m
    rw [chars, compact, appendCompact, appendMembers_eq, appendCompact_eq]
    simp [enclosed, toList_appendMembers, chars, memberChars, Text.toList_quote]

theorem chars_repr (i : Int) : chars (.number i) = i.repr.toList := by
  simp [chars, compact, appendCompact]

theorem chars_number (i : Int) :
    chars (.number i) = (if i < 0 then ['-'] else []) ++ Nat.toDigits 10 i.natAbs := by
  rw [chars_repr]
  cases i with
  | ofNat n => simp [Int.repr, Nat.toList_repr]
  | negSucc n => simp [Int.repr, Nat.toList_repr]

theorem number_chars (i : Int) : ∀ c ∈ chars (.number i), c = '-' ∨ c.isDigit = true := by
  intro c hc
  rw [chars_number] at hc
  rcases List.mem_append.mp hc with hc | hc
  · split at hc <;> simp_all
  · exact .inr (Nat.isDigit_of_mem_toDigits (by omega) (by omega) hc)

variable {bits : UInt64} (h : Decimal.Format.double.Finite bits.toNat)
include h

theorem floatText_of_finite : floatText bits = floatLayout.write .double bits.toNat := by
  simp [floatText, h.1, h.2]

theorem chars_float : chars (.float bits) =
    (if Decimal.Format.double.negative bits.toNat then ['-'] else []) ++
      floatLayout.place (floatLayout.decimal .double bits.toNat) := by
  rw [← Decimal.Layout.toList_write floatLayout h, ← floatText_of_finite h]
  simp [chars, compact, appendCompact]

end Chars

section Kinds

/-- What the first character of a text tells of a document. -/
inductive Kind
  | null | bool | number | string | array | object

def kind : Json → Kind
  | .null => .null
  | .bool _ => .bool
  | .number _ | .float _ => .number
  | .string _ => .string
  | .array _ => .array
  | .fields _ => .object

def kindOf (c : Char) : Option Kind :=
  if isNumberChar c then some .number
  else if c = 'n' then some .null
  else if c = 't' ∨ c = 'f' then some .bool
  else if c = '"' then some .string
  else if c = '[' then some .array
  else if c = '\x7b' then some .object
  else none

/-- A decimal, whatever its sign, is in characters of numbers. -/
theorem float_chars {bits : UInt64} (h : Decimal.Format.double.Finite bits.toNat) :
    ∀ c ∈ chars (.float bits), isNumberChar c = true := by
  rw [chars_float h]
  refine List.forall_mem_append.mpr ⟨?_, Decimal.place_chars _ _⟩
  split <;> simp [isNumberChar]

theorem isNumberChar_of_number (i : Int) : ∀ c ∈ chars (.number i), isNumberChar c = true := by
  intro c hc
  rcases number_chars i c hc with rfl | hdigit
  · rfl
  · simp [isNumberChar, hdigit]

theorem exists_chars {j : Json} (hj : j.Numeric) :
    ∃ c cs, chars j = c :: cs ∧ kindOf c = some j.kind := by
  have hnumber : ∀ {cs : List Char}, cs ≠ [] → (∀ c ∈ cs, isNumberChar c = true) →
      ∃ c rest, cs = c :: rest ∧ kindOf c = some .number := by
    intro cs hne hcs
    obtain ⟨c, rest, rfl⟩ := List.exists_cons_of_ne_nil hne
    exact ⟨c, rest, rfl, if_pos (hcs c List.mem_cons_self)⟩
  cases hj with
  | null => exact ⟨_, _, rfl, rfl⟩
  | bool b => cases b <;> exact ⟨_, _, rfl, rfl⟩
  | number i =>
    refine hnumber ?_ (isNumberChar_of_number i)
    rw [chars_number]
    simp [Nat.toDigits_ne_nil]
  | @float bits h =>
    refine hnumber ?_ (float_chars h)
    obtain ⟨c, cs, hplace, _⟩ :=
      Decimal.place_head floatLayout (floatLayout.decimal .double bits.toNat)
    rw [chars_float h, hplace]
    simp
  | string s => exact ⟨_, _, chars_string s, rfl⟩
  | @array items _ =>
    rw [chars_array]
    cases items <;> exact ⟨_, _, rfl, rfl⟩
  | @fields members _ =>
    rw [chars_fields]
    cases members <;> exact ⟨_, _, rfl, rfl⟩

end Kinds

/-- Only documents of one kind can have texts that go on alike. -/
theorem kind_of_append {j j' : Json} (hj : j.Numeric) (hj' : j'.Numeric) {rest rest' : List Char}
    (h : chars j ++ rest = chars j' ++ rest') : j.kind = j'.kind := by
  obtain ⟨c, cs, hc, hkind⟩ := exists_chars hj
  obtain ⟨c', cs', hc', hkind'⟩ := exists_chars hj'
  rw [hc, hc'] at h
  exact Option.some.inj (by rw [← hkind, ← hkind', (List.cons.inj h).1])

/-- A whole number has neither a point nor an exponent, and a float has one of them. -/
theorem number_ne_float (i : Int) {bits : UInt64} (h : Decimal.Format.double.Finite bits.toNat) :
    chars (.number i) ≠ chars (.float bits) := by
  intro heq
  have hnone : ∀ c ∈ chars (.float bits), c = '-' ∨ c.isDigit = true := heq ▸ number_chars i
  have hmem : ∀ c ∈ floatLayout.place (floatLayout.decimal .double bits.toNat),
      c = '-' ∨ c.isDigit = true := by
    intro c hc
    exact hnone c (by rw [chars_float h]; exact List.mem_append_right _ hc)
  have hmarked : floatLayout.pointZero = true := rfl
  rcases Decimal.place_marked hmarked (floatLayout.decimal .double bits.toNat) with hmark | hmark
  · exact absurd (hmem _ hmark) (by decide)
  · exact absurd (hmem _ hmark) (by decide)

theorem number_injective {i i' : Int} (h : chars (.number i) = chars (.number i')) : i = i' := by
  rw [chars_repr, chars_repr] at h
  exact Int.repr_inj.mp (String.toList_inj.mp h)

theorem float_injective {bits bits' : UInt64} (h : Decimal.Format.double.Finite bits.toNat)
    (h' : Decimal.Format.double.Finite bits'.toNat)
    (heq : chars (.float bits) = chars (.float bits')) : bits = bits' := by
  rw [chars_float h, chars_float h', ← Decimal.Layout.toList_write _ h,
    ← Decimal.Layout.toList_write _ h'] at heq
  exact UInt64.toNat_inj.mp (Decimal.Layout.write_injective (f := .double) floatLayout (by decide)
    bits.toNat_lt bits'.toNat_lt h h' (String.toList_inj.mp heq))

section Members
variable {rest rest' : List Char}

theorem array_append_inj {items items' : List Json}
    (hitems : ∀ item ∈ items ++ items', item.Numeric)
    (hinj : ∀ item ∈ items, ∀ item' ∈ items', ∀ {rest rest'}, Stops rest → Stops rest' →
      chars item ++ rest = chars item' ++ rest' → item = item' ∧ rest = rest')
    (h : chars (.array items) ++ rest = chars (.array items') ++ rest') :
    items = items' ∧ rest = rest' := by
  rw [chars_array, chars_array] at h
  have hhead : ∀ item ∈ items ++ items', ∃ c cs, chars item = c :: cs ∧ c ≠ ']' := by
    intro item hitem
    obtain ⟨c, cs, hc, hkind⟩ := exists_chars (hitems item hitem)
    refine ⟨c, cs, hc, ?_⟩
    rintro rfl
    cases hkind
  exact enclosed_append_inj (by decide) (by decide) hinj hhead h

theorem fields_append_inj {members members' : List (String × Json)}
    (hinj : ∀ m ∈ members, ∀ m' ∈ members', ∀ {rest rest'}, Stops rest → Stops rest' →
      chars m.2 ++ rest = chars m'.2 ++ rest' → m.2 = m'.2 ∧ rest = rest')
    (h : chars (.fields members) ++ rest = chars (.fields members') ++ rest') :
    members = members' ∧ rest = rest' := by
  rw [chars_fields, chars_fields] at h
  have hmember : ∀ m ∈ members, ∀ m' ∈ members', ∀ {rest rest'}, Stops rest → Stops rest' →
      memberChars m ++ rest = memberChars m' ++ rest' → m = m' ∧ rest = rest' := by
    intro m hm m' hm' rest rest' hrest hrest' heq
    simp only [memberChars, List.cons_append, List.append_assoc] at heq
    obtain ⟨hkey, hmore⟩ := Text.quoted_append_inj (List.cons.inj heq).2
    obtain ⟨hvalue, hafter⟩ := hinj m hm m' hm' hrest hrest' (List.cons.inj hmore).2
    exact ⟨Prod.ext (String.toList_inj.mp hkey) hvalue, hafter⟩
  exact enclosed_append_inj (by decide) (by decide) hmember (fun m _ => ⟨'"', _, rfl, by decide⟩) h

end Members

/-- A document ends in one way. -/
theorem chars_append_inj {j j' : Json} (hj : j.Numeric) (hj' : j'.Numeric) {rest rest' : List Char}
    (hrest : Stops rest) (hrest' : Stops rest') (h : chars j ++ rest = chars j' ++ rest') :
    j = j' ∧ rest = rest' := by
  induction hj generalizing j' rest rest' with
  | null =>
    have hkind := kind_of_append .null hj' h
    cases hj' <;> cases hkind
    exact ⟨rfl, List.append_cancel_left h⟩
  | bool b =>
    have hkind := kind_of_append (.bool b) hj' h
    cases hj' <;> cases hkind
    rename_i b'
    obtain rfl : b = b' := by
      cases b <;> cases b' <;> first | rfl | cases h
    exact ⟨rfl, List.append_cancel_left h⟩
  | number i =>
    have hkind := kind_of_append (.number i) hj' h
    cases hj' with
    | number i' =>
      obtain ⟨htext, rfl⟩ := number_append_inj (isNumberChar_of_number i)
        (isNumberChar_of_number i') hrest hrest' h
      exact ⟨congrArg _ (number_injective htext), rfl⟩
    | float hfinite =>
      have htext := (number_append_inj (isNumberChar_of_number i) (float_chars hfinite)
        hrest hrest' h).1
      exact absurd htext (number_ne_float i hfinite)
    | _ => cases hkind
  | float hfinite =>
    have hkind := kind_of_append (.float hfinite) hj' h
    cases hj' with
    | number i =>
      have htext := (number_append_inj (float_chars hfinite) (isNumberChar_of_number i)
        hrest hrest' h).1
      exact absurd htext.symm (number_ne_float i hfinite)
    | float hfinite' =>
      obtain ⟨htext, rfl⟩ := number_append_inj (float_chars hfinite) (float_chars hfinite')
        hrest hrest' h
      exact ⟨congrArg _ (float_injective hfinite hfinite' htext), rfl⟩
    | _ => cases hkind
  | string s =>
    have hkind := kind_of_append (.string s) hj' h
    cases hj' <;> cases hkind
    rename_i s'
    rw [chars_string, chars_string] at h
    simp only [List.cons_append, List.append_assoc, List.nil_append] at h
    obtain ⟨hs, rfl⟩ := Text.quoted_append_inj (List.cons.inj h).2
    exact ⟨congrArg _ (String.toList_inj.mp hs), rfl⟩
  | @array items hitems ih =>
    have hkind := kind_of_append (.array hitems) hj' h
    cases hj' <;> cases hkind
    rename_i items' hitems'
    obtain ⟨rfl, rfl⟩ := array_append_inj (List.forall_mem_append.mpr ⟨hitems, hitems'⟩)
      (fun item hitem item' hitem' _ _ => ih item hitem (hitems' item' hitem')) h
    exact ⟨rfl, rfl⟩
  | @fields members hmembers ih =>
    have hkind := kind_of_append (.fields hmembers) hj' h
    cases hj' <;> cases hkind
    rename_i members' hmembers'
    obtain ⟨rfl, rfl⟩ := fields_append_inj
      (fun m hm m' hm' _ _ => ih m hm (hmembers' m' hm')) h
    exact ⟨rfl, rfl⟩

/-- The text of a document in which every float is a number tells the document. -/
theorem compact_injective {j j' : Json} (hj : j.Numeric) (hj' : j'.Numeric)
    (h : j.compact = j'.compact) : j = j' := by
  have hnil : Stops [] := nofun
  exact (chars_append_inj hj hj' hnil hnil (by rw [chars, h]; rfl)).1

end Json

end Didl
