import Didl.Proofs.Merging
import Didl.Proofs.Placing
import Didl.Proofs.ReadUnplaced

namespace Didl.Idl

/-- Texts in order, with white space or comments behind each of them. Only behind the last one may
there be none. -/
inductive Spaced : List String → List Char → Prop
  | nil : Spaced [] []
  | last {word : String} {gap : List Char} : Gap gap → Spaced [word] (word.toList ++ gap)
  | cons {word : String} {gap rest : List Char} {words : List String} : Gap gap → gap ≠ [] →
      Spaced words rest → Spaced (word :: words) (word.toList ++ (gap ++ rest))

/-- The source consists of the texts in order, with white space or comments between them and perhaps
at both ends. -/
def LaidOut (words : List String) (source : String) : Prop :=
  ∃ gap rest, source.toList = gap ++ rest ∧ Gap gap ∧ Spaced words rest

namespace Lexeme
variable {before : Option Char} {body rest : List Char}

theorem length_block (h : IsBlockBody body) :
    length before ('/' :: '*' :: (body ++ '*' :: '/' :: rest)) = body.length + 4 := by
  have hblock : blockComment ('/' :: '*' :: (body ++ '*' :: '/' :: rest)) = body.length + 4 := by
    rw [blockComment, blockEnd_of_isBlockBody h]
    omega
  simp [length, firstOf, hblock]

theorem length_line (h : '\n' ∉ body) :
    length before ('/' :: '/' :: (body ++ '\n' :: rest)) = body.length + 2 := by
  have hrun : (body ++ '\n' :: rest).takeWhile (· != '\n') = body := by
    rw [List.takeWhile_append_of_pos fun c hc => by simpa using fun heq : c = '\n' => h (heq ▸ hc)]
    simp
  have hline : lineComment ('/' :: '/' :: (body ++ '\n' :: rest)) = body.length + 2 := by
    rw [lineComment, hrun, Nat.add_comm]
  simp [length, firstOf, blockComment, hline]

end Lexeme

namespace Gap
open Text (isWordChar)
open Lexeme (endsWord)
variable {gap rest : List Char} {words : List String}

/-- No word goes on with white space or a comment. -/
theorem endsWord_append (h : Gap gap) (hrest : gap = [] → endsWord rest = true) :
    endsWord (gap ++ rest) = true := by
  cases h with
  | nil => exact hrest rfl
  | blank hc => simp [endsWord, (Text.apart_of_isBlank hc).1]
  | block | line => rfl

/-- White space and comments are passed, and no word goes on behind them. -/
theorem lexes (h : Gap gap)
    (hrest : ∀ before : Option Char, before.any isWordChar = false → Lexes before rest words)
    {before : Option Char} (hbefore : gap = [] → before.any isWordChar = false) :
    Lexes before (gap ++ rest) words := by
  induction h generalizing before with
  | nil => exact hrest before (hbefore rfl)
  | blank hc _ ih => exact .of_isBlank hc (ih fun _ => (Text.apart_of_isBlank hc).1)
  | @block body more hbody _ ih =>
    have hlast : Lexes (some '/') (more ++ rest) words := ih fun _ => rfl
    have hpassed : Lexes before (('/' :: '*' :: (body ++ ['*']) ++ ['/']) ++ (more ++ rest)) words := by
      refine .skipped (by simp) ?_ rfl (by rwa [List.getLast?_concat])
      simpa using Lexeme.length_block hbody
    simpa using hpassed
  | @line body more hbody _ ih =>
    have hlast : Lexes (some '\n') (more ++ rest) words := ih fun _ => rfl
    have hpassed : Lexes before (('/' :: '/' :: body) ++ ('\n' :: (more ++ rest))) words := by
      refine .skipped (by simp) ?_ rfl (.of_isBlank (by decide) hlast)
      simpa using Lexeme.length_line hbody
    simpa using hpassed

end Gap

namespace IsToken
open Text (isWordChar)
open Lexeme (endsWord)

theorem lexes {text : String} {before : Option Char} {rest : List Char} {words : List String}
    (h : IsToken text) (hbefore : before.any isWordChar = false) (hrest : endsWord rest = true)
    (hwords : Lexes text.toList.getLast? rest words) :
    Lexes before (text.toList ++ rest) (text :: words) := by
  have hword := Lexes.word h.toList_ne_nil (h.length_eq hbefore hrest) h.isSkipped_eq hwords
  rwa [String.ofList_toList] at hword

end IsToken

namespace Spaced
open Text (isWordChar)

theorem lexes {words : List String} {cs : List Char} (h : Spaced words cs)
    (hwords : ∀ w ∈ words, IsToken w) {before : Option Char}
    (hbefore : before.any isWordChar = false) : Lexes before cs words := by
  induction h generalizing before with
  | nil => exact .nil before
  | @last word gap hgap =>
    have hend : Lexeme.endsWord (gap ++ []) = true := hgap.endsWord_append fun _ => rfl
    rw [List.append_nil] at hend
    refine (hwords word List.mem_cons_self).lexes hbefore hend ?_
    cases gap with
    | nil => exact .nil _
    | cons c gap =>
      have hpassed : Lexes word.toList.getLast? (c :: gap ++ []) [] :=
        hgap.lexes (fun before _ => .nil before) nofun
      rwa [List.append_nil] at hpassed
  | @cons word gap rest words hgap hne _ ih =>
    obtain ⟨hword, hwords⟩ := List.forall_mem_cons.mp hwords
    refine hword.lexes hbefore (hgap.endsWord_append fun hnil => absurd hnil hne) ?_
    exact hgap.lexes (fun before hbefore => ih hwords hbefore) fun hnil => absurd hnil hne

end Spaced

namespace Token

/-- A text that is split into itself is a token. -/
theorem isToken_of_split {word : String}
    (h : (split word).map (List.map Token.text) = .ok [word, ""]) : IsToken word := by
  cases hsplit : split word with
  | error failure =>
    rw [hsplit] at h
    cases h
  | ok tokens =>
    rw [hsplit] at h
    obtain ⟨words, rfl, hpassed⟩ := passed_of_split hsplit
    obtain ⟨text, tail, _, hcovers, _⟩ := hpassed.last
    have htexts : words.map Token.text = [word] := by
      have hall : words.map Token.text ++ [""] = [word] ++ [""] := by simpa [Except.map] using h
      exact List.append_cancel_right hall
    obtain ⟨token, rfl, rfl⟩ := List.map_eq_singleton_iff.mp htexts
    exact hcovers.isToken token List.mem_cons_self

/-- A source is split into the tokens that it has in order. -/
theorem split_laidOut {words : List String} {source : String} (hwords : ∀ w ∈ words, IsToken w)
    (h : LaidOut words source) :
    ∃ tokens, split source = .ok tokens ∧ tokens.map Token.text = words ++ [""] := by
  obtain ⟨gap, rest, hsource, hgap, hspaced⟩ := h
  have hlexes : Lexes none source.toList words := by
    rw [hsource]
    exact hgap.lexes (fun _ hbefore => hspaced.lexes hwords hbefore) fun _ => rfl
  exact hlexes.scan ⟨1, 1⟩ []

end Token

/-- Sources that are split into the same texts spell the same program, places left out. -/
theorem Program.ofSource_unplaced_eq {source source' : String} {tokens tokens' : List Token}
    (h : Token.split source = .ok tokens) (h' : Token.split source' = .ok tokens')
    (htexts : tokens.map Token.text = tokens'.map Token.text) :
    unplacedResult Program.unplaced (ofSource source) =
      unplacedResult Program.unplaced (ofSource source') := by
  have hunplaced : ∀ ts : List Token, ts.map Token.unplaced =
      (ts.map Token.text).map fun text => ⟨text, .nowhere⟩ := by
    intro ts
    rw [List.map_map]
    rfl
  have htokens : tokens.map Token.unplaced = tokens'.map Token.unplaced := by
    rw [hunplaced, hunplaced, htexts]
  have hsource : ∀ {source : String} {tokens : List Token}, Token.split source = .ok tokens →
      ofSource source = ofTokens tokens := by
    intro source tokens hsplit
    rw [ofSource, hsplit]
    rfl
  rw [hsource h, hsource h', ← ofTokens_unplaced, htokens, ofTokens_unplaced]

/-- Two pieces of work leave the same record and yield the same, or fail for the same cause, places
left out. -/
def YieldSame {σ α β : Type} (g : α → β) (x y : Loading σ α) : Prop :=
  ∀ state, Prod.map (unplacedResult g) id (x.run.run state) =
    Prod.map (unplacedResult g) id (y.run.run state)

namespace YieldSame
variable {σ α β γ δ : Type} {g : α → β} {k : γ → δ} {x y : Loading σ α}

theorem refl (g : α → β) (x : Loading σ α) : YieldSame g x x := fun _ => rfl

theorem pure {a b : α} (h : g a = g b) :
    YieldSame g (Pure.pure a : Loading σ α) (Pure.pure b) := fun state =>
  congrArg (fun c => ((.ok c : Except Failure β), state)) h

theorem lift {r r' : Except Failure α} (h : unplacedResult g r = unplacedResult g r') :
    YieldSame g (liftM r : Loading σ α) (liftM r') := by
  intro state
  have hrun : ∀ r : Except Failure α, (liftM r : Loading σ α).run.run state = (r, state) := by
    intro r
    cases r <;> rfl
  rw [hrun, hrun, Prod.map, Prod.map, h]

theorem bind {f f' : α → Loading σ γ} (h : YieldSame g x y)
    (hf : ∀ a b, g a = g b → YieldSame k (f a) (f' b)) : YieldSame k (x >>= f) (y >>= f') := by
  intro state
  have hfirst := h state
  rw [ExceptT.run_bind, StateT.run_bind, ExceptT.run_bind, StateT.run_bind]
  rcases hx : x.run.run state with ⟨e | a, s⟩ <;> rcases hy : y.run.run state with ⟨e' | b, s'⟩ <;>
    rw [hx, hy] at hfirst <;> obtain ⟨hresult, rfl⟩ := Prod.mk.inj hfirst
  · exact congrArg (fun e => ((.error e : Except Failure δ), s)) (Except.error.inj hresult)
  · cases hresult
  · cases hresult
  · exact hf a b (Except.ok.inj hresult) s

end YieldSame

namespace Import
variable {σ : Type} (load : Loader σ)

theorem foldlM_mergeOne_unplaced (depth : Nat) (opened : List String) {imports imports' : List Import}
    (h : imports.map Import.unplaced = imports'.map Import.unplaced)
    (r : List Definition × List String) :
    imports.foldlM (mergeOne load depth opened) r = imports'.foldlM (mergeOne load depth opened) r := by
  have hpaths : ∀ is : List Import, (is.map Import.unplaced).foldlM (mergeOne load depth opened) r =
      is.foldlM (mergeOne load depth opened) r := fun is => List.foldlM_map ..
  rw [← hpaths, h, hpaths]

theorem merge_yieldSame (depth : Nat) (opened merged : List String) {p q : Program}
    (h : p.unplaced = q.unplaced) : YieldSame (Prod.map (List.map Definition.unplaced) id)
      (merge load depth opened merged p) (merge load depth opened merged q) := by
  obtain ⟨himports, hdefinitions, _⟩ := Program.mk.inj h
  cases depth with
  | zero => exact .refl _ _
  | succ depth =>
    rw [merge_succ, merge_succ, foldlM_mergeOne_unplaced load depth opened himports]
    refine .bind (.refl id _) ?_
    rintro ⟨imported, merged⟩ _ rfl
    exact .pure (by simp [hdefinitions])

end Import

theorem Interface.ofSourceWith_yieldSame {σ : Type} (load : Loader σ) (depth : Nat)
    {source source' : String} (h : unplacedResult Program.unplaced (Program.ofSource source) =
      unplacedResult Program.unplaced (Program.ofSource source')) :
    YieldSame Interface.unplaced (ofSourceWith load depth source)
      (ofSourceWith load depth source') := by
  refine .bind (.lift h) fun p q hpq => .bind (Import.merge_yieldSame load depth [] [] hpq) ?_
  rintro ⟨definitions, merged⟩ ⟨definitions', merged'⟩ hmerged
  obtain ⟨himports, _, hactor⟩ := Program.mk.inj hpq
  obtain ⟨hdefinitions, _⟩ := Prod.mk.inj hmerged
  have hprogram : (⟨p.imports, definitions, p.actor⟩ : Program).unplaced =
      (⟨q.imports, definitions', q.actor⟩ : Program).unplaced :=
    Program.mk.injEq .. ▸ ⟨himports, hdefinitions, hactor⟩
  refine .lift ?_
  rw [← Program.interface_unplaced, hprogram, Program.interface_unplaced]

/-- White space and comments have no meaning. Tokens are found again in every source that has them in
order with white space or comments between them, and all such sources spell one program and compile
to one interface, with the loader asked for the same, or they fail for one cause: only places differ. -/
theorem LaidOut.same_meaning {words : List String} {source : String}
    (hwords : ∀ w ∈ words, (Token.split w).map (List.map Token.text) = .ok [w, ""])
    (h : LaidOut words source) :
    (Token.split source).map (List.map Token.text) = .ok (words ++ [""]) ∧
    ∀ source', LaidOut words source' →
      unplacedResult Program.unplaced (Program.ofSource source) =
        unplacedResult Program.unplaced (Program.ofSource source') ∧
      ∀ {σ : Type} (load : Loader σ) (depth : Nat),
        YieldSame Interface.unplaced (Interface.ofSourceWith load depth source)
          (Interface.ofSourceWith load depth source') := by
  have htokens : ∀ w ∈ words, IsToken w := fun w hw => Token.isToken_of_split (hwords w hw)
  obtain ⟨tokens, hsplit, htexts⟩ := Token.split_laidOut htokens h
  refine ⟨by rw [hsplit, Except.map, htexts], fun source' h' => ?_⟩
  obtain ⟨tokens', hsplit', htexts'⟩ := Token.split_laidOut htokens h'
  have hprogram := Program.ofSource_unplaced_eq hsplit hsplit' (htexts.trans htexts'.symm)
  exact ⟨hprogram, fun load depth => Interface.ofSourceWith_yieldSame load depth hprogram⟩

/-- A definition on one line, and one that is broken by comments: the first of them holds a quote, the
second what would start another one. -/
theorem LaidOut.same_meaning_comments :
    let words := ["type", "A", "=", "nat"]
    let source := "type A = nat"
    let source' := "/* \"*/type//*\nA\t=\n nat"
    (∀ w ∈ words, (Token.split w).map (List.map Token.text) = .ok [w, ""]) ∧
      LaidOut words source ∧ LaidOut words source' ∧
      (Token.split source).map (List.map Token.text) = .ok ["type", "A", "=", "nat", ""] ∧
      unplacedResult Program.unplaced (Program.ofSource source) =
        unplacedResult Program.unplaced (Program.ofSource source') ∧
      YieldSame Interface.unplaced (Interface.ofSourceWith Loader.nothing 1 source)
        (Interface.ofSourceWith Loader.nothing 1 source') := by
  intro words source source'
  have hwords : ∀ w ∈ words, (Token.split w).map (List.map Token.text) = .ok [w, ""] := by
    simp only [words, List.forall_mem_cons]
    exact ⟨by cbv, by cbv, by cbv, by cbv, List.forall_mem_nil _⟩
  have hblank : ∀ {c : Char}, Text.isBlank c = true → Gap [c] := fun hc => .blank hc .nil
  have hsource : LaidOut words source := by
    have hspaced : Spaced words ("type".toList ++ ([' '] ++ ("A".toList ++ ([' '] ++
        ("=".toList ++ ([' '] ++ ("nat".toList ++ []))))))) :=
      .cons (hblank rfl) (by decide) (.cons (hblank rfl) (by decide)
        (.cons (hblank rfl) (by decide) (.last .nil)))
    exact ⟨[], _, by decide, .nil, hspaced⟩
  have hsource' : LaidOut words source' := by
    have hspaced : Spaced words ("type".toList ++ (['/', '/', '*', '\n'] ++ ("A".toList ++ (['\t'] ++
        ("=".toList ++ (['\n', ' '] ++ ("nat".toList ++ []))))))) :=
      .cons (@Gap.line ['*'] [] (by decide) .nil) (by decide) (.cons (hblank rfl) (by decide)
        (.cons (.blank rfl (hblank rfl)) (by decide) (.last .nil)))
    exact ⟨_, _, by decide, @Gap.block [' ', '"'] [] (by decide) .nil, hspaced⟩
  obtain ⟨htexts, hsame⟩ := hsource.same_meaning hwords
  obtain ⟨hprogram, hinterface⟩ := hsame source' hsource'
  exact ⟨hwords, hsource, hsource', htexts, hprogram, hinterface Loader.nothing 1⟩

end Didl.Idl
