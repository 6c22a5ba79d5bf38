import Didl.Idl.Escape
import Didl.Proofs.EntryFormat

namespace Didl.Idl

inductive Hexadecimal : List Char → Nat → Prop
  | digit {c : Char} {d : Nat} : hexDigitValue? c = some d → Hexadecimal [c] d
  | behind {cs : List Char} {c : Char} {n d : Nat} :
      Hexadecimal cs n → hexDigitValue? c = some d → Hexadecimal (cs ++ [c]) (16 * n + d)

theorem hexDigitValue?_lt {c : Char} {d : Nat} (h : hexDigitValue? c = some d) : d < 16 := by
  have hbelow : ∀ last : Char, c ≤ last → c.toNat ≤ last.toNat := fun _ hc => hc
  unfold hexDigitValue? at h
  split_ifs at h with hdecimal hlower hupper
  · have hle : c.toNat ≤ 57 := hbelow '9' hdecimal.2
    cases h
    omega
  · have hle : c.toNat ≤ 102 := hbelow 'f' hlower.2
    cases h
    omega
  · have hle : c.toNat ≤ 70 := hbelow 'F' hupper.2
    cases h
    omega

namespace Hexadecimal
variable {cs : List Char} {c : Char} {n : Nat}

theorem ne_nil (h : Hexadecimal cs n) : cs ≠ [] := by
  cases h <;> simp

theorem digits (h : Hexadecimal cs n) : ∀ c ∈ cs, (hexDigitValue? c).isSome = true := by
  induction h with
  | digit hd => simp [hd]
  | behind _ hd ih => simpa [or_imp, forall_and, hd] using ih

theorem not_mem (h : Hexadecimal cs n) (hc : hexDigitValue? c = none) : c ∉ cs := by
  intro hmem
  have hdigit := h.digits c hmem
  rw [hc] at hdigit
  cases hdigit

end Hexadecimal

theorem hexadecimal_concat {cs : List Char} {c : Char} {n : Nat} :
    Hexadecimal (cs ++ [c]) n ↔ ∃ d, hexDigitValue? c = some d ∧
      (cs = [] ∧ n = d ∨ ∃ m, Hexadecimal cs m ∧ n = 16 * m + d) := by
  constructor
  · intro h
    generalize hcs : cs ++ [c] = ds at h
    cases h with
    | digit hd =>
      obtain ⟨rfl, hc⟩ := List.append_inj' (hcs.trans (List.nil_append _).symm) rfl
      cases hc
      exact ⟨n, hd, .inl ⟨rfl, rfl⟩⟩
    | behind h hd =>
      obtain ⟨rfl, hc⟩ := List.append_inj' hcs rfl
      cases hc
      exact ⟨_, hd, .inr ⟨_, h, rfl⟩⟩
  · rintro ⟨d, hd, ⟨rfl, rfl⟩ | ⟨m, h, rfl⟩⟩
    · exact .digit hd
    · exact .behind h hd

theorem digitsValue?_eq_some {cs : List Char} (hne : cs ≠ []) {n : Nat} :
    digitsValue? 16 cs = some n ↔ Hexadecimal cs n := by
  have hconcat : ∀ (cs : List Char) (c : Char), digitsValue? 16 (cs ++ [c]) =
      (digitsValue? 16 cs).bind fun n => (hexDigitValue? c).map fun d => 16 * n + d := by
    intro cs c
    unfold digitsValue?
    rw [List.foldlM_append]
    congr 1
    funext n
    cases hc : hexDigitValue? c with
    | none => simp [hc]
    | some d => simp [hc, hexDigitValue?_lt hc]
  induction cs using List.reverseRecOn generalizing n with
  | nil => exact absurd rfl hne
  | append_singleton cs c ih =>
    rw [hconcat, hexadecimal_concat]
    simp only [Option.bind_eq_some_iff, Option.map_eq_some_iff]
    cases cs with
    | nil =>
      constructor
      · rintro ⟨m, hm, d, hd, rfl⟩
        cases hm
        exact ⟨d, hd, .inl ⟨rfl, by omega⟩⟩
      · rintro ⟨d, hd, ⟨_, rfl⟩ | ⟨m, h, _⟩⟩
        · exact ⟨0, rfl, n, hd, by omega⟩
        · exact absurd rfl h.ne_nil
    | cons c' cs =>
      constructor
      · rintro ⟨m, hm, d, hd, rfl⟩
        exact ⟨d, hd, .inr ⟨m, (ih (by simp)).mp hm, rfl⟩⟩
      · rintro ⟨d, hd, ⟨hnil, _⟩ | ⟨m, hm, rfl⟩⟩
        · cases hnil
        · exact ⟨m, (ih (by simp)).mpr hm, d, hd, rfl⟩

/-- A number is read from digits, and from digits with a plus sign in front. -/
theorem naturalOf?_eq_some {cs : List Char} {n : Nat} : naturalOf? 16 cs = some n ↔
    Hexadecimal cs n ∨ ∃ digits, cs = '+' :: digits ∧ Hexadecimal digits n := by
  have hread : ∀ digits : List Char, (if digits.isEmpty then none else digitsValue? 16 digits) = some n ↔
      Hexadecimal digits n := by
    intro digits
    cases digits with
    | nil => exact ⟨nofun, fun h => absurd rfl h.ne_nil⟩
    | cons c digits => exact digitsValue?_eq_some (by simp)
  unfold naturalOf?
  split
  · rename_i digits
    rw [hread]
    refine ⟨fun h => .inr ⟨digits, rfl, h⟩, ?_⟩
    rintro (h | ⟨_, ⟨⟩, h⟩)
    · exact absurd List.mem_cons_self (h.not_mem (c := '+') (by decide))
    · exact h
  · rename_i hsign
    rw [hread]
    refine ⟨.inl, ?_⟩
    rintro (h | ⟨digits, rfl, _⟩)
    · exact h
    · exact absurd rfl (hsign digits)

theorem scalarOf?_eq_some {n : Nat} {c : Char} : scalarOf? n = some c ↔ c.toNat = n := by
  unfold scalarOf?
  split
  · rename_i hvalid
    rw [Option.some.injEq, ← Char.toNat_inj]
    exact eq_comm
  · rename_i hinvalid
    refine ⟨nofun, ?_⟩
    rintro rfl
    exact absurd c.valid hinvalid

namespace Escape

def letters : List (Char × Char) :=
  [('n', '\n'), ('r', '\r'), ('t', '\t'), ('\\', '\\'), ('"', '"'), ('\'', '\'')]

/-- A character or an escape, and the bytes that it stands for. -/
inductive Piece : List Char → List UInt8 → Prop
  | char {c : Char} : c ≠ '\\' → Piece [c] (String.utf8EncodeChar c)
  | letter {l c : Char} : (l, c) ∈ letters → Piece ['\\', l] (String.utf8EncodeChar c)
  | byte {high low : Char} {n : Nat} :
      Hexadecimal [high, low] n → Piece ['\\', high, low] [UInt8.ofNat n]
  | scalar {digits : List Char} {c : Char} : Hexadecimal digits c.toNat →
      Piece ('\\' :: 'u' :: '{' :: (digits ++ ['}'])) (String.utf8EncodeChar c)

/-- Pieces one behind the other, and the bytes that they stand for. -/
inductive Spells : List Char → List UInt8 → Prop
  | nil : Spells [] []
  | cons {piece cs : List Char} {new bs : List UInt8} :
      Piece piece new → Spells cs bs → Spells (piece ++ cs) (new ++ bs)

/-- What the reader takes for an escape though it is none: a sign stands where a digit should, or the
number in braces has no end. -/
inductive Slip : List Char → Prop
  | byte {low : Char} {n : Nat} (rest : List Char) :
      Hexadecimal [low] n → Slip ('\\' :: '+' :: low :: rest)
  | signed {digits : List Char} {c : Char} (rest : List Char) : Hexadecimal digits c.toNat →
      Slip ('\\' :: 'u' :: '{' :: '+' :: (digits ++ '}' :: rest))
  | unclosed {digits : List Char} {c : Char} : Hexadecimal digits c.toNat →
      Slip ('\\' :: 'u' :: '{' :: digits)
  | both {digits : List Char} {c : Char} : Hexadecimal digits c.toNat →
      Slip ('\\' :: 'u' :: '{' :: '+' :: digits)

def Slips (cs : List Char) : Prop :=
  ∃ before bs after, Spells before bs ∧ cs = before ++ after ∧ Slip after

theorem Slips.cons {piece cs : List Char} {new : List UInt8} (hpiece : Piece piece new)
    (h : Slips cs) : Slips (piece ++ cs) := by
  obtain ⟨before, bs, after, hspells, rfl, hslip⟩ := h
  exact ⟨piece ++ before, new ++ bs, after, .cons hpiece hspells, (List.append_assoc ..).symm, hslip⟩

theorem Slip.slips {cs : List Char} (h : Slip cs) : Slips cs := ⟨[], [], cs, .nil, rfl, h⟩

theorem ofLetter?_eq_some {l : Char} {b : UInt8} :
    ofLetter? l = some b ↔ ∃ c, (l, c) ∈ letters ∧ String.utf8EncodeChar c = [b] := by
  constructor
  · intro h
    unfold ofLetter? at h
    split at h
    case h_7 => cases h
    all_goals
      cases h
      exact ⟨_, by simp [letters]; rfl, by decide⟩
  · rintro ⟨c, hmem, hc⟩
    simp only [letters, List.mem_cons, Prod.mk.injEq, List.not_mem_nil, or_false] at hmem
    rcases hmem with ⟨rfl, rfl⟩ | ⟨rfl, rfl⟩ | ⟨rfl, rfl⟩ | ⟨rfl, rfl⟩ | ⟨rfl, rfl⟩ | ⟨rfl, rfl⟩ <;>
    · cases hc
      rfl

theorem length_letter : ∀ p ∈ letters, (String.utf8EncodeChar p.2).length = 1 := by
  decide

/-- No digit is the letter of an escape. -/
theorem ofLetter?_digit {c : Char} (h : (hexDigitValue? c).isSome = true) :
    ofLetter? c = none ∧ c ≠ 'u' := by
  constructor
  · unfold ofLetter?
    split
    case h_7 => rfl
    all_goals exact absurd h (by decide)
  · rintro rfl
    exact absurd h (by decide)

section Steps
variable {done : List UInt8} {cs : List Char} {c : Char}

theorem bytes_char (hc : c ≠ '\\') :
    bytes done (c :: cs) = bytes ((String.utf8EncodeChar c).reverse ++ done) cs := by
  rw [bytes]
  · rintro _ rfl
    exact absurd rfl hc
  · rintro _ rfl
    exact absurd rfl hc
  · rintro _ _ rfl
    exact absurd rfl hc
  · rintro rfl
    exact absurd rfl hc

theorem bytes_letter {b : UInt8} (hb : ofLetter? c = some b) :
    bytes done ('\\' :: c :: cs) = bytes (b :: done) cs := by
  have hu : c ≠ 'u' := by
    rintro rfl
    cases hb
  cases cs with
  | nil => rw [bytes.eq_4 _ _ hu fun _ heq _ => hu heq, hb]
  | cons low cs => rw [bytes.eq_5 _ _ _ _ hu fun _ heq _ => hu heq, hb]

theorem bytes_byte {low : Char} {n : Nat} (hletter : ofLetter? c = none) (hu : c ≠ 'u')
    (hn : naturalOf? 16 [c, low] = some n) :
    bytes done ('\\' :: c :: low :: cs) = bytes (UInt8.ofNat n :: done) cs := by
  rw [bytes.eq_5 _ _ _ _ hu fun _ heq _ => hu heq, hletter, hn]

theorem bytes_scalar {digits : List Char} (hclose : '}' ∉ digits)
    (hc : (naturalOf? 16 digits).bind scalarOf? = some c) :
    bytes done ('\\' :: 'u' :: '{' :: (digits ++ '}' :: cs)) =
      bytes ((String.utf8EncodeChar c).reverse ++ done) cs := by
  have htake : (digits ++ '}' :: cs).takeWhile (· != '}') = digits := by
    rw [List.takeWhile_append_of_pos fun d hd => by simpa using fun heq : d = '}' => hclose (heq ▸ hd)]
    simp
  have hdrop : (digits ++ '}' :: cs).drop (digits.length + 1) = cs := by simp
  rw [bytes.eq_2, htake, hc]
  dsimp only
  rw [hdrop]

end Steps

/-- What is spelled is read. -/
theorem bytes_of_spells {cs : List Char} {new : List UInt8} (h : Spells cs new)
    (done : List UInt8) : bytes done cs = .ok (done.reverse ++ new) := by
  induction h generalizing done with
  | nil => rw [bytes, List.append_nil]
  | @cons piece cs new bs hpiece _ ih =>
    have hdone : ((new.reverse ++ done).reverse ++ bs) = done.reverse ++ (new ++ bs) := by simp
    rw [← hdone, ← ih]
    cases hpiece with
    | char hc => exact bytes_char hc
    | letter hmem =>
      obtain ⟨b, hb⟩ := List.length_eq_one_iff.mp (length_letter _ hmem)
      rw [hb]
      exact bytes_letter (ofLetter?_eq_some.mpr ⟨_, hmem, hb⟩)
    | @byte high low n hhex =>
      obtain ⟨hletter, hu⟩ := ofLetter?_digit (hhex.digits high List.mem_cons_self)
      exact bytes_byte hletter hu (naturalOf?_eq_some.mpr (.inl hhex))
    | @scalar digits c hhex =>
      have hvalue : (naturalOf? 16 digits).bind scalarOf? = some c := by
        rw [naturalOf?_eq_some.mpr (.inl hhex), Option.bind_some, scalarOf?_eq_some]
      rw [← bytes_scalar (hhex.not_mem (by decide)) hvalue]
      simp

/-- A text up to a brace, or all of it where there is none. -/
theorem takeWhile_brace (cs : List Char) : cs = cs.takeWhile (· != '}') ∨
    ∃ rest, cs = cs.takeWhile (· != '}') ++ '}' :: rest := by
  have hsplit := List.takeWhile_append_dropWhile (p := (· != '}')) (l := cs)
  cases hrest : cs.dropWhile (· != '}') with
  | nil =>
    rw [hrest, List.append_nil] at hsplit
    exact .inl hsplit.symm
  | cons d rest =>
    have hd := List.head?_dropWhile_not (· != '}') cs
    rw [hrest] at hd hsplit
    obtain rfl : d = '}' := by simpa using hd
    exact .inr ⟨rest, hsplit.symm⟩

/-- One piece in front of what is read. -/
theorem Piece.extend {piece cs : List Char} {new done bs : List UInt8} (hpiece : Piece piece new)
    (h : Slips cs ∨ ∃ rest, Spells cs rest ∧ bs = (new.reverse ++ done).reverse ++ rest) :
    Slips (piece ++ cs) ∨ ∃ rest, Spells (piece ++ cs) rest ∧ bs = done.reverse ++ rest := by
  rcases h with hslips | ⟨rest, hspells, rfl⟩
  · exact .inl (hslips.cons hpiece)
  · exact .inr ⟨new ++ rest, .cons hpiece hspells, by simp⟩

/-- What is read is spelled, unless something slips. -/
theorem spells_of_bytes {done bs : List UInt8} {cs : List Char} (h : bytes done cs = .ok bs) :
    Slips cs ∨ ∃ new, Spells cs new ∧ bs = done.reverse ++ new := by
  fun_induction bytes done cs with
  | case1 done =>
    cases h
    exact .inr ⟨[], .nil, by simp⟩
  | case2 done rest digits c hc ih =>
    obtain ⟨_, hn, hscalar⟩ := Option.bind_eq_some_iff.mp hc
    obtain rfl := scalarOf?_eq_some.mp hscalar
    rcases takeWhile_brace rest with hopen | ⟨after, hclosed⟩
    · change rest = digits at hopen
      rcases naturalOf?_eq_some.mp hn with hhex | ⟨signed, hsign, hhex⟩
      · exact .inl (hopen ▸ (Slip.unclosed hhex).slips)
      · rw [hopen, hsign]
        exact .inl (Slip.both hhex).slips
    · change rest = digits ++ '}' :: after at hclosed
      rcases naturalOf?_eq_some.mp hn with hhex | ⟨signed, hsign, hhex⟩
      · have hdrop : rest.drop (digits.length + 1) = after := by simp [hclosed]
        rw [hdrop] at ih h
        have hread := (Piece.scalar hhex).extend (ih h)
        rw [hclosed]
        simpa using hread
      · rw [hclosed, hsign]
        exact .inl (Slip.signed after hhex).slips
  | case5 done c rest _ hu b hb ih =>
    obtain ⟨l, hmem, hl⟩ := ofLetter?_eq_some.mp hb
    exact (Piece.letter hmem).extend (by rw [hl]; exact ih h)
  | case7 done c hu hletter low rest n hn _ ih =>
    rcases naturalOf?_eq_some.mp hn with hhex | ⟨digits, hsign, hhex⟩
    · exact (Piece.byte hhex).extend (ih h)
    · cases hsign
      exact .inl (Slip.byte rest hhex).slips
  | case10 done c rest _ _ hmore hlast ih =>
    have hc : c ≠ '\\' := by
      rintro rfl
      cases rest with
      | nil => exact hlast rfl rfl
      | cons d rest => exact hmore d rest rfl rfl
    exact (Piece.char hc).extend (ih h)
  | case3 | case4 | case6 | case8 | case9 => cases h

def quoted (cs : List Char) : String := String.ofList ('"' :: (cs ++ ['"']))

theorem decode_quoted {cs : List Char} {s : String} :
    decode (quoted cs) = .ok s ↔ ∃ bs, bytes [] cs = .ok bs ∧ s.toUTF8.toList = bs := by
  have hinside : inside? (quoted cs).toList = some cs := by simp [quoted, inside?]
  unfold decode
  rw [hinside]
  dsimp only
  rw [except_bind_eq_ok]
  refine exists_congr fun bs => and_congr_right fun _ => ?_
  rw [← fromUTF8?_eq_some]
  cases String.fromUTF8? bs.toByteArray <;> simp

end Escape

open Escape

/-- A quoted token stands for the text whose encoding its escapes spell. What is spelled in this way is
always read, and where nothing slips, nothing else is. -/
theorem Token.unescape_eq_ok (cs : List Char) (position : Position) (s : String) :
    ((∃ bs, Spells cs bs ∧ s.toUTF8.toList = bs) →
      (⟨quoted cs, position⟩ : Token).unescape = .ok s) ∧
    (¬ Slips cs → ((⟨quoted cs, position⟩ : Token).unescape = .ok s ↔
      ∃ bs, Spells cs bs ∧ s.toUTF8.toList = bs)) := by
  have hunescape : (⟨quoted cs, position⟩ : Token).unescape = .ok s ↔ decode (quoted cs) = .ok s := by
    unfold Token.unescape
    dsimp only
    cases decode (quoted cs) <;> simp
  have hread : (∃ bs, Spells cs bs ∧ s.toUTF8.toList = bs) →
      (⟨quoted cs, position⟩ : Token).unescape = .ok s := by
    rintro ⟨bs, hspells, hs⟩
    exact hunescape.mpr (decode_quoted.mpr ⟨bs, bytes_of_spells hspells [], hs⟩)
  refine ⟨hread, fun hslips => ⟨fun h => ?_, hread⟩⟩
  obtain ⟨bs, hbytes, hs⟩ := decode_quoted.mp (hunescape.mp h)
  obtain ⟨new, hspells, hnew⟩ := (spells_of_bytes hbytes).resolve_left hslips
  exact ⟨new, hspells, hs.trans hnew⟩

/-- Three bytes in digits that are one character together. -/
theorem Token.unescape_eq_ok_bytes :
    ¬ Slips ['\\', 'e', '2', '\\', '8', '2', '\\', 'a', 'c'] ∧
      (⟨quoted ['\\', 'e', '2', '\\', '8', '2', '\\', 'a', 'c'], ⟨1, 1⟩⟩ : Token).unescape =
        .ok "€" := by
  have hslips : ¬ Slips ['\\', 'e', '2', '\\', '8', '2', '\\', 'a', 'c'] := by
    rintro ⟨before, _, after, _, hcs, hslip⟩
    have hletters : '+' ∉ after ∧ 'u' ∉ after := by
      have hall : '+' ∉ before ++ after ∧ 'u' ∉ before ++ after := hcs ▸ by decide
      exact ⟨fun h => hall.1 (List.mem_append_right _ h), fun h => hall.2 (List.mem_append_right _ h)⟩
    cases hslip <;> simp at hletters
  have hspells : Spells ['\\', 'e', '2', '\\', '8', '2', '\\', 'a', 'c'] [0xe2, 0x82, 0xac] := by
    have hbyte : ∀ {high low : Char} {h l : Nat}, hexDigitValue? high = some h →
        hexDigitValue? low = some l → Piece ['\\', high, low] [UInt8.ofNat (16 * h + l)] :=
      fun hhigh hlow => .byte (.behind (.digit hhigh) hlow)
    exact .cons (hbyte (h := 14) (l := 2) (by decide) (by decide))
      (.cons (hbyte (h := 8) (l := 2) (by decide) (by decide))
        (.cons (hbyte (h := 10) (l := 12) (by decide) (by decide)) .nil))
  exact ⟨hslips, ((Token.unescape_eq_ok _ ⟨1, 1⟩ "€").2 hslips).mpr ⟨_, hspells, by cbv⟩⟩

/-- A plus sign in the place of a digit is taken, though no escape is spelled in this way. -/
theorem Token.unescape_takes_sign : ¬ ∀ (cs : List Char) (position : Position) (s : String),
    (⟨quoted cs, position⟩ : Token).unescape = .ok s ↔
      ∃ bs, Spells cs bs ∧ s.toUTF8.toList = bs := by
  intro h
  have hbytes : bytes [] ['\\', '+', '5'] = .ok [5] := by
    rw [bytes_byte (n := 5) (by decide) (by decide) (by decide), bytes]
    rfl
  have hdecode := decode_quoted.mpr ⟨_, hbytes, (by cbv : "\x05".toUTF8.toList = [5])⟩
  have hread : (⟨quoted ['\\', '+', '5'], ⟨1, 1⟩⟩ : Token).unescape = .ok "\x05" := by
    unfold Token.unescape
    rw [hdecode]
  obtain ⟨bs, hspells, _⟩ := (h _ _ _).mp hread
  generalize hcs : ['\\', '+', '5'] = cs at hspells
  cases hspells with
  | nil => cases hcs
  | cons hpiece _ =>
    cases hpiece with
    | char hc =>
      cases hcs
      exact hc rfl
    | letter hmem =>
      cases hcs
      simp [letters] at hmem
    | byte hhex =>
      cases hcs
      exact hhex.not_mem (c := '+') (by decide) List.mem_cons_self
    | scalar => cases hcs

end Didl.Idl
