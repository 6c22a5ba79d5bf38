import Didl.Proofs.Courses
import Didl.Proofs.Spelling

namespace Didl.Idl

namespace Ended
variable {token : Token} {tokens : List Token}

theorem of_append {last : Token} (hlast : last.text = "") (htexts : ∀ t ∈ tokens, t.text ≠ "") :
    Ended (tokens ++ [last]) := by
  induction tokens with
  | nil => exact .last hlast
  | cons t ts ih =>
    obtain ⟨ht, hts⟩ := List.forall_mem_cons.mp htexts
    exact .cons ht (ih hts)

theorem ne_nil (h : Ended tokens) : tokens ≠ [] := by
  rintro rfl
  cases h

theorem behind_cons (h : Ended tokens) : TokenReader.behind (token :: tokens) = tokens := by
  cases h <;> rfl

theorem eq_last (h : Ended tokens) (hfront : (TokenReader.front tokens).text = "") :
    ∃ token, tokens = [token] ∧ token.text = "" := by
  cases h with
  | last hempty => exact ⟨_, rfl, hempty⟩
  | cons htext => exact absurd hfront htext

/-- A token with text has others behind it. -/
theorem exists_cons (h : Ended tokens) (hfront : (TokenReader.front tokens).text ≠ "") :
    ∃ token rest, tokens = token :: rest ∧ Ended rest ∧ TokenReader.behind tokens = rest := by
  cases h with
  | last hempty => exact absurd hempty hfront
  | cons _ hrest => exact ⟨_, _, rfl, hrest, hrest.behind_cons⟩

theorem tail (h : Ended (token :: tokens)) (htext : token.text ≠ "") : Ended tokens := by
  cases h with
  | last hempty => exact absurd hempty htext
  | cons _ hrest => exact hrest

theorem behind (h : Ended tokens) : Ended (TokenReader.behind tokens) := by
  cases h with
  | last hempty => exact .last hempty
  | cons _ hrest => rwa [hrest.behind_cons]

theorem behind_of_isWord (h : Ended (token :: tokens)) (hword : Word.isWord token.text = true) :
    Ended tokens ∧ TokenReader.behind (token :: tokens) = tokens := by
  have hrest := h.tail (Word.ne_of_isWord hword (by decide))
  exact ⟨hrest, hrest.behind_cons⟩

end Ended

namespace TokenReader
variable {α β : Type} {f : α → TokenReader β} {tokens rest : List Token}

@[simp] theorem front_cons {token : Token} : front (token :: tokens) = token := rfl

section Running

theorem bind_eq_ok {x : TokenReader α} {b : β} :
    (x >>= f) tokens = .ok (b, rest) ↔ ∃ a mid, x tokens = .ok (a, mid) ∧ f a mid = .ok (b, rest) := by
  simp only [Bind.bind, StateT.bind, Except.bind]
  cases x tokens with
  | error e => simp
  | ok r => simp [Prod.ext_iff]

theorem pure_eq_ok {a b : α} :
    (pure a : TokenReader α) tokens = .ok (b, rest) ↔ a = b ∧ tokens = rest := by
  simp [pure, StateT.pure, Except.pure]

theorem map_eq_ok {x : TokenReader α} {g : α → β} {b : β} :
    (do return g (← x)) tokens = .ok (b, rest) ↔ ∃ a, x tokens = .ok (a, rest) ∧ g a = b := by
  simp only [bind_eq_ok, pure_eq_ok]
  constructor
  · rintro ⟨a, _, ha, rfl, rfl⟩
    exact ⟨a, ha, rfl⟩
  · rintro ⟨a, ha, rfl⟩
    exact ⟨a, rest, ha, rfl, rfl⟩

theorem lift_eq_ok {x : Except Failure α} {a : α} :
    (liftM x : TokenReader α) tokens = .ok (a, rest) ↔ x = .ok a ∧ tokens = rest := by
  cases x with
  | error e => simp [liftM, monadLift, MonadLift.monadLift, StateT.lift, Bind.bind, Except.bind]
  | ok b =>
    simp [liftM, monadLift, MonadLift.monadLift, StateT.lift, Bind.bind, Except.bind, Pure.pure,
      Except.pure]

theorem expected_ne_ok {what : String} {r : α × List Token} :
    (expected what : TokenReader α) tokens ≠ .ok r := nofun

theorem get_bind {f : List Token → TokenReader β} : (get >>= f) tokens = f tokens tokens := rfl

theorem current_bind {f : Token → TokenReader β} :
    (current >>= f) tokens = f (front tokens) tokens := rfl

theorem following_bind {f : Token → TokenReader β} :
    (following >>= f) tokens = f (front (behind tokens)) tokens := rfl

theorem skip_bind {f : Unit → TokenReader β} : (skip >>= f) tokens = f () (behind tokens) := rfl

theorem isAt_bind {text : String} {f : Bool → TokenReader β} :
    (isAt text >>= f) tokens = f ((front tokens).text == text) tokens := rfl

theorem eat_bind {text : String} {f : Bool → TokenReader β} :
    (eat text >>= f) tokens =
      if (front tokens).text = text then f true (behind tokens) else f false tokens := by
  rw [eat, bind_assoc, isAt_bind]
  by_cases h : (front tokens).text = text
  · rw [if_pos h, beq_iff_eq.mpr h]
    rfl
  · rw [if_neg h, beq_eq_false_iff_ne.mpr h]
    rfl

theorem eatIf_bind {kind : String → Bool} {f : Option Token → TokenReader β} :
    (eatIf kind >>= f) tokens =
      if kind (front tokens).text then f (some (front tokens)) (behind tokens) else f none tokens := by
  rw [eatIf, bind_assoc, current_bind]
  split
  · rfl
  · rfl

/-- What must stand at the front is passed if it stands there, and the end never does. -/
theorem passed_eq_ok {p : String → Prop} [DecidablePred p] (what : String)
    {f : Token → TokenReader β} {r : β × List Token} (hended : Ended tokens) (hp : ¬ p "") :
    (if p (front tokens).text then f (front tokens) (behind tokens)
      else (expected what : TokenReader β) tokens) = .ok r ↔
      ∃ token ts, tokens = token :: ts ∧ p token.text ∧ Ended ts ∧ f token ts = .ok r := by
  constructor
  · intro hread
    split at hread
    · rename_i hfront
      obtain ⟨token, ts, rfl, hts, hbehind⟩ := hended.exists_cons fun hempty =>
        hp (by rwa [hempty] at hfront)
      exact ⟨token, ts, rfl, hfront, hts, by rwa [hbehind] at hread⟩
    · exact absurd hread expected_ne_ok
  · rintro ⟨token, ts, rfl, hfront, hts, hread⟩
    rwa [front_cons, if_pos hfront, hts.behind_cons]

/-- An expected token is in front, and others are behind it. -/
theorem expect_bind_eq_ok {text : String} {f : Unit → TokenReader β} {r : β × List Token}
    (hended : Ended tokens) (htext : text ≠ "") :
    (expect text >>= f) tokens = .ok r ↔
      ∃ token ts, tokens = token :: ts ∧ token.text = text ∧ Ended ts ∧ f () ts = .ok r := by
  rw [← passed_eq_ok (p := (· = text)) (f := fun _ => f ()) (Text.quote text) hended htext.symm,
    expect, bind_assoc, eat_bind]
  split
  · rfl
  · rfl

theorem expectIf_bind_eq_ok {kind : String → Bool} {what : String} {f : Token → TokenReader β}
    {r : β × List Token} (hended : Ended tokens) (hkind : kind "" = false) :
    (expectIf kind what >>= f) tokens = .ok r ↔
      ∃ token ts, tokens = token :: ts ∧ kind token.text = true ∧ Ended ts ∧ f token ts = .ok r := by
  rw [← passed_eq_ok (p := (kind · = true)) what hended (by simp [hkind]), expectIf,
    bind_assoc, eatIf_bind]
  split
  · rfl
  · rfl

end Running

def Ahead : Course := fun tokens outcome =>
  ∀ rest, outcome = .ok rest → Ended tokens → Ended rest ∧ rest.length ≤ tokens.length

theorem splitModes_ahead (h : Ended tokens) :
    Ended (Grammar.splitModes tokens).2 ∧ (Grammar.splitModes tokens).2.length ≤ tokens.length := by
  induction h with
  | last hempty =>
    rw [Grammar.splitModes, hempty]
    exact ⟨.last hempty, Nat.le_refl _⟩
  | cons htext hrest ih =>
    rw [Grammar.splitModes]
    split
    · exact ⟨ih.1, Nat.le_trans ih.2 (Nat.le_succ _)⟩
    · exact ⟨.cons htext hrest, Nat.le_refl _⟩

theorem skip_ahead (h : Ended tokens) :
    Ended (behind tokens) ∧ (behind tokens).length ≤ tokens.length := by
  refine ⟨h.behind, ?_⟩
  cases h with
  | last => exact Nat.le_refl _
  | cons _ hrest =>
    rw [hrest.behind_cons]
    exact Nat.le_succ _

instance : Ahead.Closed where
  stay := by
    rintro tokens _ ⟨⟩ h
    exact ⟨h, Nat.le_refl _⟩
  skip := by
    rintro tokens _ ⟨⟩ h
    exact skip_ahead h
  modes := by
    rintro tokens _ ⟨⟩ h
    exact splitModes_ahead h
  fault := nofun
  trans := by
    intro tokens mid outcome hfirst hthen rest hrest h
    obtain ⟨hmid, hle⟩ := hfirst mid rfl h
    obtain ⟨hended, hle'⟩ := hthen rest hrest hmid
    exact ⟨hended, Nat.le_trans hle' hle⟩

theorem Takes.ended {r : TokenReader α} {a : α} (h : Takes Ahead r) (hended : Ended tokens)
    (hr : r tokens = .ok (a, rest)) : Ended rest ∧ rest.length ≤ tokens.length :=
  h tokens rest (by rw [hr]; rfl) hended

/-- Of at most so many tokens up to the end, the reader reads exactly what the relation says, where
a text of a kind follows. -/
structure Reads (n : Nat) (follow : String → Prop) (r : TokenReader α)
    (R : List Token → α → List Token → Prop) : Prop where
  ahead : Takes Ahead r
  eq_ok_iff {tokens : List Token} {a : α} {rest : List Token} : Ended tokens → tokens.length ≤ n →
    follow (front rest).text → (r tokens = .ok (a, rest) ↔ R tokens a rest)

section Items
open Grammar (SpellsItems SpellsEnclosed)
variable {item : TokenReader α} {R : List Token → α → List Token → Prop}
  {opening separator closing : String}

theorem items_succ_eq_ok {n : Nat} {as : List α} :
    items item separator closing (n + 1) tokens = .ok (as, rest) ↔
      ((front tokens).text = closing ∧ as = [] ∧ rest = behind tokens) ∨
      ((front tokens).text ≠ closing ∧ ∃ a mid, item tokens = .ok (a, mid) ∧
        ((front mid).text = separator ∨ (front mid).text = closing) ∧ ∃ as', as = a :: as' ∧
          items item separator closing n
            (if (front mid).text = separator then behind mid else mid) = .ok (as', rest)) := by
  rw [items, eat_bind]
  by_cases hclosing : (front tokens).text = closing
  · simp only [hclosing, if_true, pure_eq_ok]
    simp [eq_comm]
  · have hrest : ∀ a mid, (do return a :: (← items item separator closing n)) mid = .ok (as, rest) ↔
        ∃ as', as = a :: as' ∧ items item separator closing n mid = .ok (as', rest) := by
      intro a mid
      rw [map_eq_ok]
      exact exists_congr fun as' => and_comm.trans (and_congr_left fun _ => eq_comm)
    simp only [hclosing, if_false, false_and, false_or, ne_eq, not_false_eq_true, true_and,
      Bool.false_eq_true, bind_eq_ok (x := item), eat_bind, isAt_bind, if_true]
    refine exists_congr fun a => exists_congr fun mid => ?_
    by_cases hseparator : (front mid).text = separator
    · rw [if_pos hseparator, if_pos hseparator, hrest]
      simp only [hseparator, true_or, true_and]
    · by_cases hclose : (front mid).text = closing
      · rw [if_neg hseparator, if_neg hseparator, if_pos (beq_iff_eq.mpr hclose), hrest]
        simp only [hclose, or_true, true_and]
      · simp [hseparator, hclose, bind_eq_ok, expected_ne_ok]

theorem items_closed {fuel : Nat} (hfuel : 0 < fuel) (hfront : (front tokens).text = closing) :
    items item separator closing fuel tokens = .ok ([], behind tokens) := by
  cases fuel with
  | zero => omega
  | succ fuel => exact items_succ_eq_ok.mpr (.inl ⟨hfront, rfl, rfl⟩)

/-- Items of which none starts with the closing text. -/
theorem Reads.items_eq_ok {n : Nat} (h : Reads n (fun t => t = separator ∨ t = closing) item R)
    (hitem : ∀ {tokens a rest}, R tokens a rest → (front tokens).text ≠ closing)
    (hseparator : separator ≠ "") (hclosing : closing ≠ "") (hne : closing ≠ separator)
    {fuel : Nat} {as : List α} (hended : Ended tokens) (hn : tokens.length ≤ n)
    (hfuel : tokens.length < fuel) :
    items item separator closing fuel tokens = .ok (as, rest) ↔
      SpellsItems R separator closing tokens as rest := by
  induction fuel generalizing tokens as with
  | zero => omega
  | succ fuel ih =>
    have hpos : 0 < fuel := Nat.lt_of_lt_of_le (List.length_pos_iff.mpr hended.ne_nil) (by omega)
    rw [items_succ_eq_ok]
    constructor
    · rintro (⟨hfront, rfl, rfl⟩ | ⟨hfront, a, mid, hread, hfollow, as', rfl, hitems⟩)
      · obtain ⟨token, ts, rfl, _, hbehind⟩ := hended.exists_cons (by rwa [hfront])
        rw [hbehind]
        exact .none hfront
      · obtain ⟨hmid, hle⟩ := h.ahead.ended hended hread
        have ha := (h.eq_ok_iff hended hn hfollow).mp hread
        obtain ⟨token, ts, rfl, hts, hbehind⟩ := hmid.exists_cons
          (by rcases hfollow with hf | hf <;> rwa [hf])
        rw [List.length_cons] at hle
        rw [hbehind] at hitems
        split at hitems
        · rename_i hsep
          exact .cons ha hsep ((ih hts (by omega) (by omega)).mp hitems)
        · rename_i hsep
          have hclose : (front (token :: ts)).text = closing := hfollow.resolve_left hsep
          rw [items_closed hpos hclose, hbehind] at hitems
          cases hitems
          exact .last ha hclose
    · intro hspelled
      cases hspelled with
      | none hclose =>
        have hrest := hended.tail (by rwa [hclose])
        exact .inl ⟨hclose, rfl, hrest.behind_cons.symm⟩
      | last ha hclose =>
        have hread := (h.eq_ok_iff hended hn (by exact .inr hclose)).mpr ha
        have hrest := (h.ahead.ended hended hread).1.tail (by rwa [hclose])
        refine .inr ⟨hitem ha, _, _, hread, .inr hclose, _, rfl, ?_⟩
        rw [front_cons, if_neg (fun hsep => hne (hclose.symm.trans hsep)),
          items_closed hpos (by exact hclose), hrest.behind_cons]
      | cons ha hsep hitems =>
        have hread := (h.eq_ok_iff hended hn (by exact .inl hsep)).mpr ha
        obtain ⟨hmid, hle⟩ := h.ahead.ended hended hread
        have hts := hmid.tail (by rwa [hsep])
        rw [List.length_cons] at hle
        refine .inr ⟨hitem ha, _, _, hread, .inl hsep, _, rfl, ?_⟩
        rw [front_cons, if_pos hsep, hts.behind_cons]
        exact (ih hts (by omega) (by omega)).mpr hitems

/-- Of tokens behind the opening one, items are read as they are spelled, whatever follows. -/
theorem Reads.enclosed {n : Nat} (h : Reads n (fun t => t = separator ∨ t = closing) item R)
    (hitem : ∀ {tokens a rest}, R tokens a rest → (front tokens).text ≠ closing)
    (hopening : opening ≠ "") (hseparator : separator ≠ "") (hclosing : closing ≠ "")
    (hne : closing ≠ separator) :
    Reads n (fun _ => True) (enclosed opening separator closing item)
      (SpellsEnclosed opening separator closing R) where
  ahead := h.ahead.enclosed _ _ _
  eq_ok_iff {tokens as rest} hended hn _ := by
    rw [TokenReader.enclosed, expect_bind_eq_ok hended hopening]
    constructor
    · rintro ⟨token, ts, rfl, hstart, hts, hread⟩
      rw [List.length_cons] at hn
      exact .mk hstart ((h.items_eq_ok hitem hseparator hclosing hne hts (by omega)
        (Nat.lt_succ_self _)).mp hread)
    · rintro ⟨hstart, hitems⟩
      have hts := hended.tail (by rwa [hstart])
      rw [List.length_cons] at hn
      exact ⟨_, _, rfl, hstart, hts, (h.items_eq_ok hitem hseparator hclosing hne hts (by omega)
        (Nat.lt_succ_self _)).mpr hitems⟩

end Items

end TokenReader
end Didl.Idl
