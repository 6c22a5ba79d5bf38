import Didl.Proofs.Recognizing
import Didl.Proofs.Traversal

namespace Didl.Idl

namespace Grammar
open TokenReader

section Optional
variable {text : String} {tokens rest : List Token}

theorem eat_then {β : Type} {x : TokenReader β} :
    (eat text >>= fun _ => x) tokens =
      x (if (front tokens).text = text then behind tokens else tokens) := by
  rw [eat_bind]
  split
  · rfl
  · rfl

theorem spellsOptional (hended : Ended tokens) (htext : text ≠ "") :
    SpellsOptional text tokens (if (front tokens).text = text then behind tokens else tokens) := by
  split
  · rename_i hfront
    obtain ⟨token, ts, rfl, _, hbehind⟩ := hended.exists_cons (by rwa [hfront])
    rw [hbehind]
    exact .present hfront
  · exact .absent _

theorem ended_of_optional (text : String) (hended : Ended tokens) :
    Ended (if (front tokens).text = text then behind tokens else tokens) ∧
      (if (front tokens).text = text then behind tokens else tokens).length ≤ tokens.length := by
  split
  · exact skip_ahead hended
  · exact ⟨hended, Nat.le_refl _⟩

theorem SpellsOptional.eq (h : SpellsOptional text tokens rest) (hended : Ended tokens)
    (htext : text ≠ "") (hrest : (front rest).text ≠ text) :
    (if (front tokens).text = text then behind tokens else tokens) = rest := by
  cases h with
  | absent => exact if_neg hrest
  | present hfront => rw [front_cons, if_pos hfront, (hended.tail (by rwa [hfront])).behind_cons]

end Optional

/-- What may stand in front of what is left when all imports and definitions are read. -/
def EndsDeclarations (rest : List Token) : Prop :=
  (front rest).text = "service" ∨ (front rest).text = ""

theorem SpellsDeclarations.front_cases {ts rest : List Token} {imports : List Import}
    {definitions : List Definition} (h : SpellsDeclarations ts imports definitions rest)
    (hrest : EndsDeclarations rest) : (front ts).text ∉ Keyword.modes ∧ (front ts).text ≠ ";" := by
  cases h with
  | nil => rcases hrest with hr | hr <;> rw [hr] <;> decide
  | definition hword | «import» hword =>
    rw [front_cons, hword]
    decide

/-- A type is followed by no mode if imports and definitions come behind it. -/
theorem SpellsOptional.not_mode {ts ts' : List Token} (h : SpellsOptional ";" ts ts')
    (hts' : (front ts').text ∉ Keyword.modes) : (front ts).text ∉ Keyword.modes := by
  cases h with
  | absent => exact hts'
  | present hsemicolon =>
    rw [front_cons, hsemicolon]
    decide

theorem declarations_spelled {n : Nat} {tokens rest : List Token}
    {found : List Import × List Definition} (hended : Ended tokens) (hn : tokens.length ≤ n) (hfollow : EndsDeclarations rest)
    (hread : declarations n tokens = .ok (found, rest)) :
    SpellsDeclarations tokens found.1 found.2 rest := by
  induction n generalizing tokens found with
  | zero => exact absurd (List.length_eq_zero_iff.mp (Nat.le_zero.mp hn)) hended.ne_nil
  | succ n ih =>
    -- what comes behind a definition or an import
    have hthen : ∀ {mid : List Token} {imports : List Import} {definitions : List Definition},
        Ended mid → mid.length ≤ n →
        declarations n (if (front mid).text = ";" then behind mid else mid) =
          .ok ((imports, definitions), rest) →
        ∃ ts, SpellsOptional ";" mid ts ∧ SpellsDeclarations ts imports definitions rest := by
      intro mid imports definitions hmid hle hread
      obtain ⟨hended, hle'⟩ := ended_of_optional ";" hmid
      exact ⟨_, spellsOptional hmid (by decide), ih hended (Nat.le_trans hle' hle) hread⟩
    rw [declarations, current_bind, eat_bind] at hread
    split at hread
    · rename_i hword
      obtain ⟨word, ts, rfl, hts, hbehind⟩ := hended.exists_cons (by rw [hword]; decide)
      rw [if_pos rfl, hbehind] at hread
      obtain ⟨name, ts, rfl, hname, hts, hread⟩ := (expectIf_bind_eq_ok hts (by decide)).mp hread
      obtain ⟨equals, ts, rfl, hequals, hts, hread⟩ := (expect_bind_eq_ok hts (by decide)).mp hread
      obtain ⟨body, mid, hbody, hread⟩ := bind_eq_ok.mp hread
      obtain ⟨hmid, hle⟩ := type_takes.ended hts hbody
      rw [eat_then] at hread
      obtain ⟨⟨imports, definitions⟩, _, hdeclared, hpure⟩ := bind_eq_ok.mp hread
      obtain ⟨rfl, rfl⟩ := pure_eq_ok.mp hpure
      simp only [List.length_cons] at hn
      obtain ⟨ts', hoptional, hdeclarations⟩ := hthen hmid (by omega) hdeclared
      have hmode := hoptional.not_mode (hdeclarations.front_cases hfollow).1
      exact .definition hword hname hequals
        (((type_reads _).eq_ok_iff hts (Nat.le_refl _) hmode).mp hbody) hoptional hdeclarations
    · rw [if_neg (by decide), eat_bind] at hread
      split at hread
      · rename_i hword
        obtain ⟨word, ts, rfl, hts, hbehind⟩ := hended.exists_cons (by rw [hword]; decide)
        rw [if_pos rfl, hbehind] at hread
        obtain ⟨quoted, ts, rfl, hquoted, hts, hread⟩ :=
          (expectIf_bind_eq_ok hts (by decide)).mp hread
        obtain ⟨path, mid, hlift, hread⟩ := bind_eq_ok.mp hread
        obtain ⟨hpath, rfl⟩ := lift_eq_ok.mp hlift
        rw [eat_then] at hread
        obtain ⟨⟨imports, definitions⟩, _, hdeclared, hpure⟩ := bind_eq_ok.mp hread
        obtain ⟨rfl, rfl⟩ := pure_eq_ok.mp hpure
        simp only [List.length_cons] at hn
        obtain ⟨ts', hoptional, hdeclarations⟩ := hthen hts (by omega) hdeclared
        exact .import hword hquoted hpath hoptional hdeclarations
      · rw [if_neg (by decide)] at hread
        obtain ⟨rfl, rfl⟩ := pure_eq_ok.mp hread
        exact .nil _

theorem declarations_of_spelled {n : Nat} {tokens rest : List Token} {imports : List Import}
    {definitions : List Definition} (h : SpellsDeclarations tokens imports definitions rest)
    (hended : Ended tokens) (hn : tokens.length ≤ n) (hfollow : EndsDeclarations rest) :
    declarations n tokens = .ok ((imports, definitions), rest) := by
  induction h generalizing n with
  | nil rest =>
    cases n with
    | zero => rfl
    | succ n =>
      have hfront : (front rest).text ≠ "type" ∧ (front rest).text ≠ "import" := by
        rcases hfollow with hr | hr <;> rw [hr] <;> decide
      rw [declarations, current_bind, eat_bind, if_neg hfront.1, if_neg (by decide), eat_bind,
        if_neg hfront.2]
      rfl
  | definition hword hname hequals hbody hoptional hdeclarations ih =>
    cases n with
    | zero => cases hn
    | succ n =>
      have hcases := hdeclarations.front_cases hfollow
      have hts := hended.tail (by rw [hword]; decide)
      obtain ⟨hts', _⟩ := hts.behind_of_isWord (Word.isWord_of_isName hname)
      have hts'' := hts'.tail (by rw [hequals]; decide)
      have hread := ((type_reads _).eq_ok_iff hts'' (Nat.le_refl _)
        (hoptional.not_mode hcases.1)).mpr hbody
      obtain ⟨hmid, hle⟩ := type_takes.ended hts'' hread
      obtain ⟨hmid', hle'⟩ := ended_of_optional ";" hmid
      rw [hoptional.eq hmid (by decide) hcases.2] at hmid' hle'
      simp only [List.length_cons] at hn
      rw [declarations, current_bind, eat_bind, front_cons, if_pos hword, hts.behind_cons,
        if_pos rfl, expectIf_bind_eq_ok hts (by decide)]
      refine ⟨_, _, rfl, hname, hts', (expect_bind_eq_ok hts' (by decide)).mpr
        ⟨_, _, rfl, hequals, hts'', bind_eq_ok.mpr ⟨_, _, hread, ?_⟩⟩⟩
      rw [eat_then, hoptional.eq hmid (by decide) hcases.2]
      exact bind_eq_ok.mpr ⟨_, _, ih hmid' (by omega) hfollow, rfl⟩
  | «import» hword hquoted hpath hoptional hdeclarations ih =>
    cases n with
    | zero => cases hn
    | succ n =>
      have hcases := hdeclarations.front_cases hfollow
      have hts := hended.tail (by rw [hword]; decide)
      obtain ⟨hts', _⟩ := hts.behind_of_isWord (Word.isWord_of_isQuoted hquoted)
      obtain ⟨hmid', hle'⟩ := ended_of_optional ";" hts'
      rw [hoptional.eq hts' (by decide) hcases.2] at hmid' hle'
      simp only [List.length_cons] at hn
      rw [declarations, current_bind, eat_bind, front_cons,
        if_neg (by rw [hword]; decide), if_neg (by decide), eat_bind, front_cons, if_pos hword,
        hts.behind_cons, if_pos rfl, expectIf_bind_eq_ok hts (by decide)]
      refine ⟨_, _, rfl, hquoted, hts', bind_eq_ok.mpr ⟨_, _, lift_eq_ok.mpr ⟨hpath, rfl⟩, ?_⟩⟩
      rw [eat_then, hoptional.eq hts' (by decide) hcases.2]
      exact bind_eq_ok.mpr ⟨_, _, ih hmid' (by omega) hfollow, rfl⟩

section Service
variable {tokens rest : List Token}

theorem init_eq_ok {found : Option (List (ArgExpr TypeExpr))} (hended : Ended tokens)
    (hfollow : (front rest).text ≠ "(") :
    Grammar.init tokens = .ok (found, rest) ↔ SpellsInit tokens found rest := by
  have hargs := arguments_reads (type_reads tokens.length)
  rw [Grammar.init, isAt_bind]
  constructor
  · intro hread
    split at hread
    · obtain ⟨args, mid, hspelled, hthen⟩ := bind_eq_ok.mp hread
      obtain ⟨hmid, _⟩ := hargs.ahead.ended hended hspelled
      obtain ⟨arrow, ts, rfl, harrow, _, hpure⟩ := (expect_bind_eq_ok hmid (by decide)).mp hthen
      obtain ⟨rfl, rfl⟩ := pure_eq_ok.mp hpure
      exact .some ((hargs.eq_ok_iff hended (Nat.le_refl _) trivial).mp hspelled) harrow
    · obtain ⟨rfl, rfl⟩ := pure_eq_ok.mp hread
      exact .none _
  · intro hspelled
    cases hspelled with
    | none =>
      rw [if_neg (by simpa using hfollow)]
      rfl
    | some hspelled harrow =>
      have hread := (hargs.eq_ok_iff hended (Nat.le_refl _) trivial).mpr hspelled
      obtain ⟨hmid, _⟩ := hargs.ahead.ended hended hread
      obtain ⟨hstart, _⟩ := hspelled
      rw [front_cons, if_pos (beq_iff_eq.mpr hstart), bind_eq_ok]
      refine ⟨_, _, hread, (expect_bind_eq_ok hmid (by decide)).mpr ⟨_, _, rfl, harrow, ?_, rfl⟩⟩
      exact hmid.tail (by rw [harrow]; decide)

theorem body_eq_ok {α : Type} {k : TypeExpr → α} {r : α} (hended : Ended tokens) :
    (do
      if ← isAt "\x7b" then
        return k (.form (.service (← methods type)))
      else
        let target ← expectIf Word.isName "service body or service name"
        return k (reference target)) tokens = .ok (r, rest) ↔
      ∃ body, r = k body ∧ SpellsBody tokens body rest := by
  have hmethods := methods_reads (type_reads tokens.length)
  rw [isAt_bind]
  constructor
  · intro hread
    split at hread
    · obtain ⟨ms, hms, rfl⟩ := map_eq_ok.mp hread
      exact ⟨_, rfl, .methods ((hmethods.eq_ok_iff hended (Nat.le_refl _) trivial).mp hms)⟩
    · obtain ⟨target, ts, rfl, htarget, _, hpure⟩ :=
        (expectIf_bind_eq_ok hended (by decide)).mp hread
      obtain ⟨rfl, rfl⟩ := pure_eq_ok.mp hpure
      exact ⟨_, rfl, .name htarget⟩
  · rintro ⟨body, rfl, hspelled⟩
    cases hspelled with
    | methods hspelled =>
      have hread := (hmethods.eq_ok_iff hended (Nat.le_refl _) trivial).mpr hspelled
      obtain ⟨hstart, _⟩ := hspelled
      rw [front_cons, if_pos (beq_iff_eq.mpr hstart), bind_eq_ok]
      exact ⟨_, _, hread, rfl⟩
    | name htarget =>
      have hword := Word.isWord_of_isName htarget
      rw [front_cons, if_neg (by simpa using Word.ne_of_isWord hword (by decide)),
        expectIf_bind_eq_ok hended (by decide)]
      exact ⟨_, _, rfl, htarget, (hended.behind_of_isWord hword).1, rfl⟩

theorem SpellsBody.front_ne {body : TypeExpr} (h : SpellsBody tokens body rest) :
    (front tokens).text ≠ "(" := by
  cases h with
  | methods hspelled =>
    obtain ⟨hstart, _⟩ := hspelled
    rw [front_cons, hstart]
    decide
  | name htarget => exact Word.ne_of_isWord (Word.isWord_of_isName htarget) (by decide)

theorem serviceName_spelled {α : Type} {k : Option Token → TokenReader α} {r : α × List Token}
    (hended : Ended tokens) (hread : (eatIf Word.isName >>= k) tokens = .ok r) :
    ∃ found ts, SpellsServiceName tokens (found.map (·.text)) ts ∧ Ended ts ∧ k found ts = .ok r := by
  rw [eatIf_bind] at hread
  split at hread
  · rename_i hname
    obtain ⟨token, ts, rfl, hts, hbehind⟩ := hended.exists_cons
      (Word.ne_of_isWord (Word.isWord_of_isName hname) (by decide))
    rw [hbehind] at hread
    exact ⟨some token, ts, .some hname, hts, hread⟩
  · exact ⟨none, tokens, .none _, hended, hread⟩

theorem SpellsServiceName.eatIf_eq {name : Option String} (h : SpellsServiceName tokens name rest)
    (hended : Ended tokens) (hfollow : Word.isName (front rest).text = false) :
    ∃ found : Option Token, found.map (·.text) = name ∧ Ended rest ∧
      ∀ {α : Type} (k : Option Token → TokenReader α),
        (eatIf Word.isName >>= k) tokens = k found rest := by
  cases h with
  | none =>
    refine ⟨.none, rfl, hended, fun k => ?_⟩
    rw [eatIf_bind, hfollow]
    rfl
  | some hname =>
    obtain ⟨hts, hbehind⟩ := hended.behind_of_isWord (Word.isWord_of_isName hname)
    refine ⟨.some _, rfl, hts, fun k => ?_⟩
    rw [eatIf_bind, front_cons, if_pos hname, hbehind]

theorem actor_eq_ok {found : Actor} (hended : Ended tokens) :
    actor tokens = .ok (found, rest) ↔ SpellsService tokens found rest := by
  rw [actor, current_bind, expect_bind_eq_ok hended (by decide)]
  constructor
  · rintro ⟨word, ts, rfl, hword, hts, hread⟩
    obtain ⟨name, ts, hname, hts, hread⟩ := serviceName_spelled hts hread
    obtain ⟨colon, ts, rfl, hcolon, hts, hread⟩ := (expect_bind_eq_ok hts (by decide)).mp hread
    obtain ⟨init, ts, hinit, hread⟩ := bind_eq_ok.mp hread
    obtain ⟨hts', _⟩ := init_takes.ended hts hinit
    obtain ⟨body, rfl, hbody⟩ := (body_eq_ok hts').mp hread
    exact .mk hword hname hcolon ((init_eq_ok hts hbody.front_ne).mp hinit) hbody
  · rintro ⟨hword, hname, hcolon, hinit, hbody⟩
    have hts := hended.tail (by rw [hword]; decide)
    obtain ⟨name, rfl, hmid, hnamed⟩ := hname.eatIf_eq hts (by rw [front_cons, hcolon]; decide)
    have hts₁ := hmid.tail (by rw [hcolon]; decide)
    have hread := (init_eq_ok hts₁ hbody.front_ne).mpr hinit
    obtain ⟨hts₂, _⟩ := init_takes.ended hts₁ hread
    refine ⟨_, _, rfl, hword, hts, ?_⟩
    rw [hnamed, expect_bind_eq_ok hmid (by decide)]
    exact ⟨_, _, rfl, hcolon, hts₁, bind_eq_ok.mpr
      ⟨_, _, hread, (body_eq_ok hts₂).mpr ⟨_, rfl, hbody⟩⟩⟩

theorem SpellsService.front_eq {found : Actor} (h : SpellsService tokens found rest) :
    (front tokens).text = "service" := by
  obtain ⟨hword, _⟩ := h
  exact hword

theorem actor?_eq_ok {found : Option Actor} (hended : Ended tokens)
    (hlast : (front rest).text = "") : actor? tokens = .ok (found, rest) ↔ SpellsActor tokens found rest := by
  rw [actor?, isAt_bind]
  constructor
  · intro hread
    split at hread
    · obtain ⟨a, mid, hactor, hread⟩ := bind_eq_ok.mp hread
      obtain ⟨hmid, _⟩ := actor_takes.ended hended hactor
      rw [eat_then] at hread
      obtain ⟨rfl, rfl⟩ := pure_eq_ok.mp hread
      exact .some ((actor_eq_ok hended).mp hactor) (spellsOptional hmid (by decide))
    · obtain ⟨rfl, rfl⟩ := pure_eq_ok.mp hread
      exact .none _
  · intro hspelled
    cases hspelled with
    | none =>
      rw [if_neg (by rw [hlast]; decide)]
      rfl
    | some hservice hoptional =>
      have hactor := (actor_eq_ok hended).mpr hservice
      obtain ⟨hmid, _⟩ := actor_takes.ended hended hactor
      rw [if_pos (beq_iff_eq.mpr hservice.front_eq), bind_eq_ok]
      refine ⟨_, _, hactor, ?_⟩
      rw [eat_then, hoptional.eq hmid (by decide) (by rw [hlast]; decide)]
      rfl

end Service

theorem SpellsActor.endsDeclarations {ts rest : List Token} {found : Option Actor}
    (h : SpellsActor ts found rest) (hlast : (front rest).text = "") : EndsDeclarations ts := by
  cases h with
  | none => exact .inr hlast
  | some hservice => exact .inl hservice.front_eq

theorem program_eq_ok {tokens rest : List Token} {found : Program} (hended : Ended tokens) :
    program tokens = .ok (found, rest) ↔
      ∃ ts, SpellsDeclarations tokens found.imports found.definitions ts ∧
        SpellsActor ts found.actor rest ∧ (front rest).text = "" := by
  rw [program, get_bind, bind_eq_ok]
  constructor
  · rintro ⟨⟨imports, definitions⟩, ts, hdeclared, hread⟩
    obtain ⟨hts, _⟩ := (declarations_takes _).ended hended hdeclared
    obtain ⟨a, mid, hactor, hread⟩ := bind_eq_ok.mp hread
    rw [current_bind] at hread
    split at hread
    · rename_i hlast
      obtain ⟨rfl, rfl⟩ := pure_eq_ok.mp hread
      have hspelled := (actor?_eq_ok hts hlast).mp hactor
      exact ⟨ts, declarations_spelled hended (Nat.le_refl _) (hspelled.endsDeclarations hlast)
        hdeclared, hspelled, hlast⟩
    · cases hread
  · rintro ⟨ts, hdeclared, hspelled, hlast⟩
    have hread := declarations_of_spelled hdeclared hended (Nat.le_refl _)
      (hspelled.endsDeclarations hlast)
    obtain ⟨hts, _⟩ := (declarations_takes _).ended hended hread
    refine ⟨_, _, hread, bind_eq_ok.mpr ⟨_, _, (actor?_eq_ok hts hlast).mpr hspelled, ?_⟩⟩
    rw [current_bind, if_pos hlast]
    rfl

end Grammar

/-- Words are never empty, so the source is split up to the mark of the end. -/
theorem Token.scan_ended {before : Option Char} {position : Position} {done tokens : List Token}
    {cs : List Char} (hdone : ∀ t ∈ done, t.text ≠ "")
    (h : scan before position done cs = .ok tokens) : Ended tokens := by
  fun_induction scan before position done cs with
  | case1 =>
    cases h
    rw [List.reverse_cons]
    exact .of_append rfl (by simpa using hdone)
  | case2 => cases h
  | case3 before position done c rest count hcount lexeme done' ih =>
    refine ih ?_ h
    have hlexeme : lexeme ≠ [] := by simpa [lexeme] using hcount
    intro t ht
    simp only [done'] at ht
    split at ht
    · exact hdone t ht
    · rcases List.mem_cons.mp ht with rfl | ht
      · simpa using hlexeme
      · exact hdone t ht

theorem Token.split_ended {source : String} {tokens : List Token}
    (h : Token.split source = .ok tokens) : Ended tokens :=
  scan_ended (List.forall_mem_nil _) h

namespace Program
open Grammar

theorem ofTokens_iff {tokens : List Token} {program : Program} :
    ofTokens tokens = .ok program ↔ ∃ rest, Grammar.program tokens = .ok (program, rest) := by
  unfold ofTokens StateT.run'
  cases Grammar.program tokens with
  | error e => simp [Functor.map, Except.map]
  | ok r => simp [Functor.map, Except.map, Prod.ext_iff]

theorem spelled_iff {tokens : List Token} {program : Program} (hended : Ended tokens) :
    SpellsProgram tokens program ↔ ∃ rest, Grammar.program tokens = .ok (program, rest) := by
  constructor
  · rintro ⟨hdeclared, hactor, hlast⟩
    exact ⟨_, (program_eq_ok hended).mpr ⟨_, hdeclared, hactor, hlast⟩⟩
  · rintro ⟨rest, hread⟩
    obtain ⟨ts, hdeclared, hactor, hlast⟩ := (program_eq_ok hended).mp hread
    obtain ⟨hrest, _⟩ := program_takes.ended hended hread
    obtain ⟨last, rfl, hempty⟩ := hrest.eq_last hlast
    exact .mk hdeclared hactor hempty

/-- No tokens spell two programs. -/
theorem spelled_unique {tokens : List Token} {p q : Program} (hended : Ended tokens)
    (hp : SpellsProgram tokens p) (hq : SpellsProgram tokens q) : p = q := by
  obtain ⟨rest, hp⟩ := (spelled_iff hended).mp hp
  obtain ⟨rest', hq⟩ := (spelled_iff hended).mp hq
  rw [hp] at hq
  cases hq
  rfl

/-- Tokens up to the mark of the end are a program if and only if they spell it. -/
theorem ofTokens_eq_ok {tokens : List Token} {program : Program} (hended : Ended tokens) :
    ofTokens tokens = .ok program ↔ SpellsProgram tokens program :=
  ofTokens_iff.trans (spelled_iff hended).symm

def getter : List Token :=
  ["type", "T", "=", "record", "\x7b", "nat", ";", "x", "\x7d", "service", ":", "\x7b", "get", ":",
    "(", ")", "->", "(", "T", ")", "query", ";", "\x7d", ""].zipIdx.map
      fun (text, column) => ⟨text, ⟨1, column⟩⟩

theorem ofTokens_eq_ok_getter :
    Ended getter ∧ SpellsProgram getter
      ⟨[], [⟨"T", ⟨1, 1⟩, .form (.record [⟨none, some (.primitive "nat"), ⟨1, 5⟩⟩,
          ⟨some (.name "x"), none, ⟨1, 7⟩⟩])⟩],
        some ⟨none, ⟨1, 9⟩, none, .form (.service [⟨"get", ⟨1, 12⟩,
          .form (.func [] [⟨none, .name "T" ⟨1, 18⟩⟩] ["query"])⟩])⟩⟩ :=
  ⟨by decide, (ofTokens_eq_ok (by decide)).mp rfl⟩

/-- A source is a program if and only if its tokens spell it. -/
theorem ofSource_eq_ok {source : String} {program : Program} :
    ofSource source = .ok program ↔
      ∃ tokens, Token.split source = .ok tokens ∧ SpellsProgram tokens program := by
  rw [ofSource, except_bind_eq_ok]
  refine exists_congr fun tokens => and_congr_right fun hsplit => ?_
  rw [ofTokens_iff, spelled_iff (Token.split_ended hsplit)]

end Program
end Didl.Idl
