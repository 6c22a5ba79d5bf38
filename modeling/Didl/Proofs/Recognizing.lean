import Didl.Proofs.TokenReading

namespace Didl.Idl.Grammar
open TokenReader

section Words
variable {token : Token} {ts rest : List Token}

theorem SpellsName.isWord {name : String} (h : SpellsName token name) :
    Word.isWord token.text = true := by
  cases h with
  | bare hname => exact Word.isWord_of_isName hname
  | quoted hquoted => exact Word.isWord_of_isQuoted hquoted

theorem SpellsLabel.isWord {l : Label} (h : SpellsLabel token l) :
    Word.isWord token.text = true := by
  cases h with
  | name hname => exact Word.isWord_of_isName hname
  | text hquoted => exact Word.isWord_of_isQuoted hquoted
  | number hnumeral => exact Word.isWord_of_isNumeral hnumeral

theorem SpellsLabel.label_eq {l : Label} (h : SpellsLabel token l) (hended : Ended (token :: ts)) :
    label (token :: ts) = .ok (some l, ts) := by
  have hbehind := (hended.behind_of_isWord h.isWord).2
  rw [label, current_bind, front_cons]
  cases h with
  | name hname =>
    rw [if_pos hname, skip_bind, hbehind]
    rfl
  | text hquoted hunescape =>
    rw [if_neg (by simp [Word.isName_of_isQuoted hquoted]), if_pos hquoted, bind_eq_ok]
    refine ⟨_, _, lift_eq_ok.mpr ⟨hunescape, rfl⟩, ?_⟩
    rw [skip_bind, hbehind]
    rfl
  | number hnumeral =>
    rw [if_neg (by simp [Word.isName_of_isNumeral hnumeral]),
      if_neg (by simp [Word.isQuoted_of_isNumeral hnumeral]), if_pos hnumeral, skip_bind, hbehind]
    rfl

/-- What is no label is no word either. -/
theorem label_eq_ok {found : Option Label} (hended : Ended (token :: ts))
    (hread : label (token :: ts) = .ok (found, rest)) :
    (∃ l, found = some l ∧ SpellsLabel token l ∧ rest = ts) ∨
      (found = none ∧ Word.isWord token.text = false ∧ rest = token :: ts) := by
  have hlabel : ∀ {l}, SpellsLabel token l → found = some l ∧ SpellsLabel token l ∧ rest = ts := by
    intro l hl
    rw [hl.label_eq hended] at hread
    cases hread
    exact ⟨rfl, hl, rfl⟩
  rw [label, current_bind, front_cons] at hread
  split at hread
  · rename_i hname
    exact .inl ⟨_, hlabel (.name hname)⟩
  · split at hread
    · rename_i hquoted
      obtain ⟨s, mid, hs, hread⟩ := bind_eq_ok.mp hread
      exact .inl ⟨_, hlabel (.text hquoted (lift_eq_ok.mp hs).1)⟩
    · split at hread
      · rename_i hnumeral
        exact .inl ⟨_, hlabel (.number hnumeral)⟩
      · cases hread
        exact .inr ⟨rfl, by simp_all [Word.isWord], rfl⟩

theorem SpellsName.methodName_eq {name : String} (h : SpellsName token name)
    (hended : Ended (token :: ts)) : methodName (token :: ts) = .ok (name, ts) := by
  have hbehind := (hended.behind_of_isWord h.isWord).2
  rw [methodName, current_bind, front_cons]
  cases h with
  | bare hname =>
    rw [if_pos hname, skip_bind, hbehind]
    rfl
  | quoted hquoted hunescape =>
    rw [if_neg (by simp [Word.isName_of_isQuoted hquoted]), if_pos hquoted, bind_eq_ok]
    refine ⟨_, _, lift_eq_ok.mpr ⟨hunescape, rfl⟩, ?_⟩
    rw [skip_bind, hbehind]
    rfl

theorem methodName_eq_ok {name : String} (hended : Ended (token :: ts))
    (hread : methodName (token :: ts) = .ok (name, rest)) : SpellsName token name ∧ rest = ts := by
  have hname : ∀ {s}, SpellsName token s → SpellsName token name ∧ rest = ts := by
    intro s hs
    rw [hs.methodName_eq hended] at hread
    cases hread
    exact ⟨hs, rfl⟩
  rw [methodName, current_bind, front_cons] at hread
  split at hread
  · rename_i hbare
    exact hname (.bare hbare)
  · split at hread
    · rename_i hquoted
      obtain ⟨s, mid, hs, _⟩ := bind_eq_ok.mp hread
      exact hname (.quoted hquoted (lift_eq_ok.mp hs).1)
    · exact absurd hread expected_ne_ok

/-- A name in front of an argument is passed with its colon. -/
theorem SpellsName.argumentName_eq {name : String} {colon : Token} (h : SpellsName token name)
    (hcolon : colon.text = ":") (hended : Ended (token :: colon :: ts)) :
    argumentName (token :: colon :: ts) = .ok (some name, ts) := by
  obtain ⟨hts, hbehind⟩ := hended.behind_of_isWord h.isWord
  have hbehind' : behind (colon :: ts) = ts := (hts.tail (by rw [hcolon]; decide)).behind_cons
  rw [argumentName, current_bind, following_bind, hbehind, front_cons, front_cons, if_pos hcolon]
  cases h with
  | bare hname =>
    rw [if_neg (fun hquoted => by simp [Word.isName_of_isQuoted hquoted] at hname), if_pos hname,
      skip_bind, skip_bind, hbehind, hbehind']
    rfl
  | quoted hquoted hunescape =>
    rw [if_pos hquoted, bind_eq_ok]
    refine ⟨_, _, lift_eq_ok.mpr ⟨hunescape, rfl⟩, ?_⟩
    rw [skip_bind, skip_bind, hbehind, hbehind']
    rfl

theorem argumentName_eq_none (h : (front (behind ts)).text ≠ ":") :
    argumentName ts = .ok (none, ts) := by
  rw [argumentName, current_bind, following_bind, if_neg h]
  rfl

theorem argumentName_eq_ok {tokens : List Token} {found : Option String} (hended : Ended tokens)
    (hread : argumentName tokens = .ok (found, rest)) :
    (found = none ∧ rest = tokens) ∨
      ∃ token colon name, SpellsName token name ∧ colon.text = ":" ∧ found = some name ∧
        tokens = token :: colon :: rest := by
  by_cases hcolon : (front (behind tokens)).text = ":"
  · cases hended with
    | last hempty => exact absurd (hempty.symm.trans hcolon) (by decide)
    | cons htext hts =>
      rename_i token ts
      rw [hts.behind_cons] at hcolon
      obtain ⟨colon, ts, rfl, _, _⟩ := hts.exists_cons (by rw [hcolon]; decide)
      rw [front_cons] at hcolon
      have hname : ∀ {s}, SpellsName token s → ∃ token' colon' name, SpellsName token' name ∧
          colon'.text = ":" ∧ found = some name ∧ token :: colon :: ts = token' :: colon' :: rest := by
        intro s hs
        rw [hs.argumentName_eq hcolon (.cons htext hts)] at hread
        cases hread
        exact ⟨_, _, _, hs, hcolon, rfl, rfl⟩
      rw [argumentName, current_bind, following_bind, hts.behind_cons, front_cons, front_cons,
        if_pos hcolon] at hread
      split at hread
      · rename_i hquoted
        obtain ⟨s, mid, hs, _⟩ := bind_eq_ok.mp hread
        exact .inr (hname (.quoted hquoted (lift_eq_ok.mp hs).1))
      · split at hread
        · rename_i hbare
          exact .inr (hname (.bare hbare))
        · cases hread
          exact .inl ⟨rfl, rfl⟩
  · rw [argumentName_eq_none hcolon] at hread
    cases hread
    exact .inl ⟨rfl, rfl⟩

end Words

/-- Types of at most so many tokens are read as they are spelled, where no mode follows. -/
abbrev ReadsTypes (n : Nat) (type : TokenReader TypeExpr) : Prop :=
  Reads n (· ∉ Keyword.modes) type SpellsType

theorem SpellsType.following_ne {ts rest : List Token} {e : TypeExpr} (h : SpellsType ts e rest)
    (hended : Ended ts) (hrest : (front rest).text ≠ ":") : (front (behind ts)).text ≠ ":" := by
  have hword := Word.isWord_of_isName h.isName_front
  obtain ⟨token, ts, rfl, hts, hbehind⟩ := hended.exists_cons (Word.ne_of_isWord hword (by decide))
  rw [hbehind]
  intro hcolon
  cases ts with
  | nil => exact hts.ne_nil rfl
  | cons next ts =>
    rw [h.eq_of_colon hcolon] at hrest
    exact hrest hcolon

theorem SpellsField.isWord_front {ts rest : List Token} {f : FieldExpr TypeExpr}
    (h : SpellsField SpellsType ts f rest) : Word.isWord (front ts).text = true := by
  cases h with
  | labelled hl | label hl => exact hl.isWord
  | unlabelled htype => exact Word.isWord_of_isName htype.isName_front

theorem SpellsArgument.isWord_front {ts rest : List Token} {arg : ArgExpr TypeExpr}
    (h : SpellsArgument SpellsType ts arg rest) : Word.isWord (front ts).text = true := by
  cases h with
  | named hname => exact hname.isWord
  | plain htype => exact Word.isWord_of_isName htype.isName_front

theorem SpellsMethod.isWord_front {ts rest : List Token} {m : MethodExpr TypeExpr}
    (h : SpellsMethod SpellsType ts m rest) : Word.isWord (front ts).text = true := by
  cases h with
  | signature hname | name hname => exact hname.isWord

theorem SpellsSignature.front_eq {ts rest : List Token} {f : Form TypeExpr}
    (h : SpellsSignature SpellsType ts f rest) : (front ts).text = "(" := by
  obtain ⟨⟨hstart, _⟩, _⟩ := h
  exact hstart

theorem not_mode_of_field_end {t : String} (h : t = ";" ∨ t = "\x7d") :
    t ∉ Keyword.modes ∧ t ≠ ":" := by
  rcases h with rfl | rfl
  · decide
  · decide

theorem not_mode_of_argument_end {t : String} (h : t = "," ∨ t = ")") :
    t ∉ Keyword.modes ∧ t ≠ ":" := by
  rcases h with rfl | rfl
  · decide
  · decide

section Nested
variable {n : Nat} {type : TokenReader TypeExpr} (h : ReadsTypes n type)
include h

theorem argument_reads :
    Reads n (fun t => t = "," ∨ t = ")") (argument type) (SpellsArgument SpellsType) where
  ahead := argument_takes h.ahead
  eq_ok_iff {tokens arg rest} hended hn hfollow := by
    obtain ⟨hmode, hcolon⟩ := not_mode_of_argument_end hfollow
    rw [argument, bind_eq_ok]
    constructor
    · rintro ⟨found, mid, hname, hread⟩
      obtain ⟨e, htype, rfl⟩ := map_eq_ok.mp hread
      rcases argumentName_eq_ok hended hname with
        ⟨rfl, rfl⟩ | ⟨token, colon, name, hspelled, hc, rfl, rfl⟩
      · exact .plain ((h.eq_ok_iff hended hn hmode).mp htype)
      · have hts := (hended.behind_of_isWord hspelled.isWord).1.tail (by rw [hc]; decide)
        rw [List.length_cons, List.length_cons] at hn
        exact .named hspelled hc ((h.eq_ok_iff hts (by omega) hmode).mp htype)
    · rintro (⟨hspelled, hc, htype⟩ | htype)
      · have hts := (hended.behind_of_isWord hspelled.isWord).1.tail (by rw [hc]; decide)
        rw [List.length_cons, List.length_cons] at hn
        exact ⟨_, _, hspelled.argumentName_eq hc hended,
          map_eq_ok.mpr ⟨_, (h.eq_ok_iff hts (by omega) hmode).mpr htype, rfl⟩⟩
      · exact ⟨_, _, argumentName_eq_none (htype.following_ne hended hcolon),
          map_eq_ok.mpr ⟨_, (h.eq_ok_iff hended hn hmode).mpr htype, rfl⟩⟩

theorem field_spelled {tokens rest : List Token} {f : FieldExpr TypeExpr} (hended : Ended tokens)
    (hn : tokens.length ≤ n) (hfollow : (front rest).text = ";" ∨ (front rest).text = "\x7d")
    (hread : field type tokens = .ok (f, rest)) : SpellsField SpellsType tokens f rest := by
  obtain ⟨hmode, _⟩ := not_mode_of_field_end hfollow
  obtain ⟨token, ts, rfl⟩ := List.exists_cons_of_ne_nil hended.ne_nil
  have htype : ∀ {e}, type (token :: ts) = .ok (e, rest) → SpellsType (token :: ts) e rest :=
    (h.eq_ok_iff hended hn hmode).mp
  rw [field, current_bind, following_bind] at hread
  split at hread
  · -- a label and a type
    rename_i hnext
    obtain ⟨found, mid, hlabel, hread⟩ := bind_eq_ok.mp hread
    rcases label_eq_ok hended hlabel with ⟨l, rfl, hl, rfl⟩ | ⟨rfl, _⟩
    · obtain ⟨hmid, _⟩ := hended.behind_of_isWord hl.isWord
      obtain ⟨colon, ts, rfl, hcolon, hts, hread⟩ := (expect_bind_eq_ok hmid (by decide)).mp hread
      obtain ⟨e, he, rfl⟩ := map_eq_ok.mp hread
      rw [List.length_cons, List.length_cons] at hn
      exact .labelled hl hcolon ((h.eq_ok_iff hts (by omega) hmode).mp he)
    · exact absurd hread expected_ne_ok
  · split at hread
    · -- one token, which is a label, as a type alone would start with a name
      rename_i hnext halone
      obtain ⟨found, mid, hlabel, hread⟩ := bind_eq_ok.mp hread
      rcases label_eq_ok hended hlabel with ⟨l, rfl, hl, rfl⟩ | ⟨rfl, hword, rfl⟩
      · obtain ⟨rfl, rfl⟩ := pure_eq_ok.mp hread
        exact .label hl (by simpa using halone.2)
      · obtain ⟨e, he, rfl⟩ := map_eq_ok.mp hread
        have hname := Word.isWord_of_isName (htype he).isName_front
        rw [front_cons, hword] at hname
        cases hname
    · rename_i hnext halone
      obtain ⟨e, he, rfl⟩ := map_eq_ok.mp hread
      refine .unlabelled (htype he) ?_
      rintro name position rfl
      cases htype he with
      | name hname hstarts =>
        rw [(hended.behind_of_isWord (Word.isWord_of_isName hname)).2, front_cons, hstarts] at halone
        exact halone ⟨hfollow, rfl⟩

theorem field_of_spelled {tokens rest : List Token} {f : FieldExpr TypeExpr} (hended : Ended tokens)
    (hn : tokens.length ≤ n) (hfollow : (front rest).text = ";" ∨ (front rest).text = "\x7d")
    (hf : SpellsField SpellsType tokens f rest) : field type tokens = .ok (f, rest) := by
  obtain ⟨hmode, hcolon⟩ := not_mode_of_field_end hfollow
  rw [field, current_bind, following_bind]
  cases hf with
  | labelled hl hc htype =>
    obtain ⟨hmid, hbehind⟩ := hended.behind_of_isWord hl.isWord
    have hts := hmid.tail (by rw [hc]; decide)
    rw [List.length_cons, List.length_cons] at hn
    rw [hbehind, front_cons, if_pos hc, bind_eq_ok]
    refine ⟨_, _, hl.label_eq hended,
      (expect_bind_eq_ok hmid (by decide)).mpr ⟨_, _, rfl, hc, hts, map_eq_ok.mpr ?_⟩⟩
    exact ⟨_, (h.eq_ok_iff hts (by omega) hmode).mpr htype, rfl⟩
  | label hl hstarts =>
    rw [(hended.behind_of_isWord hl.isWord).2, if_neg hcolon, front_cons, hstarts,
      if_pos ⟨hfollow, rfl⟩, bind_eq_ok]
    exact ⟨_, _, hl.label_eq hended, rfl⟩
  | unlabelled htype hname =>
    have hstarts := htype.startsType_front hname
    rw [front_cons] at hstarts
    rw [if_neg (htype.following_ne hended hcolon), if_neg (by simp [hstarts]), map_eq_ok]
    exact ⟨_, (h.eq_ok_iff hended hn hmode).mpr htype, rfl⟩

theorem field_reads :
    Reads n (fun t => t = ";" ∨ t = "\x7d") (field type) (SpellsField SpellsType) where
  ahead := field_takes h.ahead
  eq_ok_iff hended hn hfollow :=
    ⟨field_spelled h hended hn hfollow, field_of_spelled h hended hn hfollow⟩

theorem fields_reads :
    Reads n (fun _ => True) (fields type)
      (SpellsEnclosed "\x7b" ";" "\x7d" (SpellsField SpellsType)) :=
  (field_reads h).enclosed (fun hf => Word.ne_of_isWord hf.isWord_front (by decide)) (by decide)
    (by decide) (by decide) (by decide)

theorem arguments_reads :
    Reads n (fun _ => True) (arguments type)
      (SpellsEnclosed "(" "," ")" (SpellsArgument SpellsType)) :=
  (argument_reads h).enclosed (fun ha => Word.ne_of_isWord ha.isWord_front (by decide)) (by decide)
    (by decide) (by decide) (by decide)

omit h in
theorem splitModes_eq {tokens rest : List Token} {modes : List String}
    (hfollow : (front rest).text ∉ Keyword.modes) :
    splitModes tokens = (modes, rest) ↔ SpellsModes tokens modes rest := by
  constructor
  · intro h
    induction tokens generalizing modes with
    | nil =>
      cases h
      exact .nil _
    | cons token ts ih =>
      rw [splitModes] at h
      split at h
      · rename_i hmode
        cases h
        exact .cons (by simpa using hmode) (ih rfl)
      · cases h
        exact .nil _
  · intro h
    induction h with
    | nil rest =>
      cases rest with
      | nil => rfl
      | cons token ts => rw [splitModes, if_neg (by simpa using hfollow)]
    | cons hmode _ ih => rw [splitModes, if_pos (by simpa using hmode), ih hfollow]

theorem signature_reads :
    Reads n (· ∉ Keyword.modes) (signature type) (SpellsSignature SpellsType) where
  ahead := signature_takes h.ahead
  eq_ok_iff {tokens f rest} hended hn hfollow := by
    have hargs := arguments_reads h
    rw [signature, bind_eq_ok]
    constructor
    · rintro ⟨args, mid, hread, hthen⟩
      obtain ⟨hmid, hle⟩ := hargs.ahead.ended hended hread
      have hargs' := (hargs.eq_ok_iff hended hn trivial).mp hread
      obtain ⟨arrow, ts, rfl, harrow, hts, hthen⟩ := (expect_bind_eq_ok hmid (by decide)).mp hthen
      rw [List.length_cons] at hle
      obtain ⟨results, mid, hread', hthen⟩ := bind_eq_ok.mp hthen
      obtain ⟨modes, hmodes, rfl⟩ := map_eq_ok.mp hthen
      have hresults := (hargs.eq_ok_iff hts (by omega) trivial).mp hread'
      obtain ⟨token, ts', rfl⟩ := List.exists_cons_of_ne_nil hended.ne_nil
      exact .mk hargs' harrow hresults ((splitModes_eq hfollow).mp (Except.ok.inj hmodes))
    · rintro ⟨hargs', harrow, hresults, hmodes⟩
      have hread := (hargs.eq_ok_iff hended hn trivial).mpr hargs'
      obtain ⟨hmid, hle⟩ := hargs.ahead.ended hended hread
      have hts := hmid.tail (by rw [harrow]; decide)
      rw [List.length_cons] at hle
      refine ⟨_, _, hread, (expect_bind_eq_ok hmid (by decide)).mpr ⟨_, _, rfl, harrow, hts, ?_⟩⟩
      refine bind_eq_ok.mpr ⟨_, _, (hargs.eq_ok_iff hts (by omega) trivial).mpr hresults, ?_⟩
      exact map_eq_ok.mpr ⟨_, congrArg Except.ok ((splitModes_eq hfollow).mpr hmodes), rfl⟩

theorem method_reads :
    Reads n (fun t => t = ";" ∨ t = "\x7d") (method type) (SpellsMethod SpellsType) where
  ahead := method_takes h.ahead
  eq_ok_iff {tokens m rest} hended hn hfollow := by
    obtain ⟨hmode, _⟩ := not_mode_of_field_end hfollow
    rw [method, current_bind, bind_eq_ok]
    constructor
    · rintro ⟨name, mid, hread, hthen⟩
      obtain ⟨token, ts, rfl⟩ := List.exists_cons_of_ne_nil hended.ne_nil
      obtain ⟨hname, rfl⟩ := methodName_eq_ok hended hread
      obtain ⟨hmid, _⟩ := hended.behind_of_isWord hname.isWord
      obtain ⟨colon, ts, rfl, hcolon, hts, hthen⟩ := (expect_bind_eq_ok hmid (by decide)).mp hthen
      rw [List.length_cons, List.length_cons] at hn
      rw [isAt_bind] at hthen
      split at hthen
      · obtain ⟨f, hf, rfl⟩ := map_eq_ok.mp hthen
        exact .signature hname hcolon (((signature_reads h).eq_ok_iff hts (by omega) hmode).mp hf)
      · obtain ⟨target, ts, rfl, htarget, _, hpure⟩ :=
          (expectIf_bind_eq_ok hts (by decide)).mp hthen
        obtain ⟨rfl, rfl⟩ := pure_eq_ok.mp hpure
        exact .name hname hcolon htarget
    · intro hspelled
      cases hspelled with
      | signature hname hcolon hsignature =>
        obtain ⟨hmid, _⟩ := hended.behind_of_isWord hname.isWord
        have hts := hmid.tail (by rw [hcolon]; decide)
        rw [List.length_cons, List.length_cons] at hn
        refine ⟨_, _, hname.methodName_eq hended,
          (expect_bind_eq_ok hmid (by decide)).mpr ⟨_, _, rfl, hcolon, hts, ?_⟩⟩
        rw [isAt_bind, if_pos (beq_iff_eq.mpr hsignature.front_eq), map_eq_ok]
        exact ⟨_, ((signature_reads h).eq_ok_iff hts (by omega) hmode).mpr hsignature, rfl⟩
      | name hname hcolon htarget =>
        obtain ⟨hmid, _⟩ := hended.behind_of_isWord hname.isWord
        have hts := hmid.tail (by rw [hcolon]; decide)
        have hword := Word.isWord_of_isName htarget
        refine ⟨_, _, hname.methodName_eq hended,
          (expect_bind_eq_ok hmid (by decide)).mpr ⟨_, _, rfl, hcolon, hts, ?_⟩⟩
        rw [isAt_bind, front_cons, if_neg (by simpa using Word.ne_of_isWord hword (by decide)),
          expectIf_bind_eq_ok hts (by decide)]
        exact ⟨_, _, rfl, htarget, (hts.behind_of_isWord hword).1, rfl⟩

theorem methods_reads :
    Reads n (fun _ => True) (methods type)
      (SpellsEnclosed "\x7b" ";" "\x7d" (SpellsMethod SpellsType)) :=
  (method_reads h).enclosed (fun hm => Word.ne_of_isWord hm.isWord_front (by decide)) (by decide)
    (by decide) (by decide) (by decide)

omit h in
theorem afterFormer_primitive {word : String} (hprim : Keyword.isPrimitive word = true) :
    afterFormer type word = pure (.primitive word) := by
  obtain ⟨p, rfl⟩ := Keyword.exists_of_isPrimitive hprim
  cases p <;> rfl

theorem afterFormer_spelled {token : Token} {ts rest : List Token} {e : TypeExpr}
    (hstarts : Keyword.startsType token.text = true) (hended : Ended ts) (hn : ts.length ≤ n)
    (hfollow : (front rest).text ∉ Keyword.modes)
    (hread : afterFormer type token.text ts = .ok (e, rest)) : SpellsType (token :: ts) e rest := by
  rcases Keyword.cases_of_startsType hstarts with hword | hword | hword | hword | hword | hword |
    hword | hprim
  · rw [hword] at hread
    obtain ⟨e, he, rfl⟩ := map_eq_ok.mp hread
    exact .opt hword ((h.eq_ok_iff hended hn hfollow).mp he)
  · rw [hword] at hread
    obtain ⟨e, he, rfl⟩ := map_eq_ok.mp hread
    exact .vec hword ((h.eq_ok_iff hended hn hfollow).mp he)
  · rw [hword] at hread
    cases hread
    exact .blob hword
  · rw [hword] at hread
    obtain ⟨fs, hfs, rfl⟩ := map_eq_ok.mp hread
    exact .record hword (((fields_reads h).eq_ok_iff hended hn trivial).mp hfs)
  · rw [hword] at hread
    obtain ⟨fs, hfs, rfl⟩ := map_eq_ok.mp hread
    exact .variant hword (((fields_reads h).eq_ok_iff hended hn trivial).mp hfs)
  · rw [hword] at hread
    obtain ⟨f, hf, rfl⟩ := map_eq_ok.mp hread
    exact .func hword (((signature_reads h).eq_ok_iff hended hn hfollow).mp hf)
  · rw [hword] at hread
    obtain ⟨ms, hms, rfl⟩ := map_eq_ok.mp hread
    exact .service hword (((methods_reads h).eq_ok_iff hended hn trivial).mp hms)
  · rw [afterFormer_primitive hprim] at hread
    cases hread
    exact .primitive hprim

theorem afterFormer_of_spelled {token : Token} {ts rest : List Token} {e : TypeExpr}
    (hstarts : Keyword.startsType token.text = true) (hended : Ended ts) (hn : ts.length ≤ n)
    (hfollow : (front rest).text ∉ Keyword.modes) (he : SpellsType (token :: ts) e rest) :
    afterFormer type token.text ts = .ok (e, rest) := by
  cases he with
  | name _ hname =>
    rw [hname] at hstarts
    cases hstarts
  | primitive hprim =>
    rw [afterFormer_primitive hprim]
    rfl
  | blob hword =>
    rw [hword]
    rfl
  | opt hword he =>
    rw [hword]
    exact map_eq_ok.mpr ⟨_, (h.eq_ok_iff hended hn hfollow).mpr he, rfl⟩
  | vec hword he =>
    rw [hword]
    exact map_eq_ok.mpr ⟨_, (h.eq_ok_iff hended hn hfollow).mpr he, rfl⟩
  | record hword hfs =>
    rw [hword]
    exact map_eq_ok.mpr ⟨_, ((fields_reads h).eq_ok_iff hended hn trivial).mpr hfs, rfl⟩
  | variant hword hfs =>
    rw [hword]
    exact map_eq_ok.mpr ⟨_, ((fields_reads h).eq_ok_iff hended hn trivial).mpr hfs, rfl⟩
  | func hword hf =>
    rw [hword]
    exact map_eq_ok.mpr ⟨_, ((signature_reads h).eq_ok_iff hended hn hfollow).mpr hf, rfl⟩
  | service hword hms =>
    rw [hword]
    exact map_eq_ok.mpr ⟨_, ((methods_reads h).eq_ok_iff hended hn trivial).mpr hms, rfl⟩

/-- A token goes to the first word, so the members have one less. -/
theorem typeOver_reads : ReadsTypes (n + 1) (typeOver type) where
  ahead := typeOver_takes h.ahead
  eq_ok_iff {tokens e rest} hended hn hfollow := by
    rw [typeOver, current_bind]
    by_cases hstarts : Keyword.startsType (front tokens).text = true
    · have hword := Word.isWord_of_isName (Keyword.isName_of_startsType hstarts)
      obtain ⟨token, ts, rfl, hts, hbehind⟩ :=
        hended.exists_cons (Word.ne_of_isWord hword (by decide))
      rw [List.length_cons] at hn
      rw [if_pos hstarts, skip_bind, hbehind]
      exact ⟨afterFormer_spelled h hstarts hts (by omega) hfollow,
        afterFormer_of_spelled h hstarts hts (by omega) hfollow⟩
    · rw [if_neg hstarts, expectIf_bind_eq_ok hended (by decide)]
      constructor
      · rintro ⟨token, ts, rfl, hname, _, hpure⟩
        obtain ⟨rfl, rfl⟩ := pure_eq_ok.mp hpure
        exact .name hname (by simpa using hstarts)
      · intro he
        have hform : ∃ name position, e = .name name position := by
          by_contra hform
          push Not at hform
          exact hstarts (he.startsType_front hform)
        obtain ⟨name, position, rfl⟩ := hform
        cases he with
        | name hname =>
          exact ⟨_, _, rfl, hname, (hended.behind_of_isWord (Word.isWord_of_isName hname)).1, rfl⟩

end Nested

theorem typeWithin_reads (n : Nat) : ReadsTypes n (typeWithin n) := by
  induction n with
  | zero =>
    refine ⟨.expected _, fun hended hn => ?_⟩
    exact absurd (List.length_eq_zero_iff.mp (Nat.le_zero.mp hn)) hended.ne_nil
  | succ n ih => exact typeOver_reads ih

/-- The count of tokens is enough levels. -/
theorem type_reads (n : Nat) : ReadsTypes n Grammar.type where
  ahead := type_takes
  eq_ok_iff hended _ hfollow := (typeWithin_reads _).eq_ok_iff hended (Nat.le_refl _) hfollow

end Didl.Idl.Grammar
