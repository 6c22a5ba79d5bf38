import Didl.Proofs.Courses
import Didl.Proofs.Traversal

namespace Didl.Idl

def Failure.IsParse : Failure → Prop
  | .parse _ _ => True
  | _ => False

def Reports : TokenReader.Course := fun _ outcome => ∀ e, outcome = .error e → e.IsParse

instance : Reports.Closed where
  stay := nofun
  skip := nofun
  modes := nofun
  fault := by
    rintro _ cause position _ ⟨⟩
    trivial
  trans _ h := h

theorem Token.scan_isParse {before : Option Char} {position : Position} {done : List Token}
    {cs : List Char} {e : Failure} (h : scan before position done cs = .error e) : e.IsParse := by
  fun_induction scan before position done cs with
  | case1 => cases h
  | case2 =>
    cases h
    trivial
  | case3 _ _ _ _ _ _ _ _ _ ih => exact ih h

namespace Program

theorem ofTokens_isParse {tokens : List Token} {e : Failure} (h : ofTokens tokens = .error e) :
    e.IsParse := by
  have hrun : Grammar.program tokens = .error e := by
    unfold ofTokens StateT.run' at h
    cases hrun : Grammar.program tokens with
    | error e' =>
      rw [hrun] at h
      cases h
      rfl
    | ok r =>
      rw [hrun] at h
      cases h
  have hreports : Reports tokens ((Grammar.program tokens).map Prod.snd) :=
    Grammar.program_takes tokens
  rw [hrun] at hreports
  exact hreports e rfl

/-- A source that is no program is told by a fault of parsing. -/
theorem ofSource_isParse {source : String} {e : Failure} (h : ofSource source = .error e) :
    e.IsParse := by
  unfold ofSource at h
  cases htokens : Token.split source with
  | error e' =>
    rw [htokens] at h
    cases h
    exact Token.scan_isParse htokens
  | ok tokens =>
    rw [htokens] at h
    exact ofTokens_isParse h

end Program

end Didl.Idl
