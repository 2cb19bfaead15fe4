import Injector.Placeholder

/-!
# Depth and expansion

Expanding a text is bounded by a depth, but the depth decides about nothing else: where it was enough,
a greater one gives the same (`Marks.expand_settled`, `Settings.evaluate_settled`).
-/

namespace Injector

/-- The second outcome is the first, unless the first is that of being stopped for its depth. -/
def Settles {α : Type} (outcome further : Except Stop α) : Prop :=
  outcome ≠ .error .tooDeep → further = outcome

namespace Settles

variable {α β : Type}

theorem refl (outcome : Except Stop α) : Settles outcome outcome :=
  fun _ => rfl

theorem bind {outcome further : Except Stop α} {next next' : α → Except Stop β}
    (h : Settles outcome further) (hnext : ∀ value, Settles (next value) (next' value)) :
    Settles (outcome >>= next) (further >>= next') := by
  intro hne
  cases outcome with
  | error stop =>
    rw [h fun heq => hne (congrArg (· >>= next) heq)]
    rfl
  | ok value =>
    rw [h fun heq => nomatch heq]
    exact hnext value hne

theorem map {outcome further : Except Stop α} (f : α → β) (h : Settles outcome further) :
    Settles (outcome.map f) (further.map f) := by
  intro hne
  rw [h fun heq => hne (congrArg (Except.map f) heq)]

end Settles

namespace Marks

variable {marks : Marks} {whole : String} {nested nested' : List (List Char) → List Char → Expansion}
  (hnested : ∀ stack text, Settles (nested stack text) (nested' stack text))

include hnested

theorem substitute_settled (stack : List (List Char)) (body : List Char) :
    Settles (marks.substitute whole nested stack body) (marks.substitute whole nested' stack body) := by
  unfold substitute
  refine (hnested stack body).bind fun key => ?_
  dsimp only
  split
  · exact .refl _
  · split
    · exact hnested _ _
    · exact .refl _

theorem scan_settled (stack : List (List Char)) (text : List Char) :
    Settles (marks.scan whole nested stack text) (marks.scan whole nested' stack text) := by
  rw [scan, scan]
  split
  · exact .refl _
  · split
    · exact .refl _
    · next body rest _ =>
      refine (substitute_settled hnested stack body).bind fun inserted => ?_
      split
      · exact (scan_settled stack rest).bind fun remainder => .refl _
      · exact .refl _
termination_by text.length

omit hnested in
/-- **A greater depth gives the same where the depth was enough.** -/
theorem expand_settled (marks : Marks) (whole : String) {depth further : Nat} (h : depth ≤ further)
    (stack : List (List Char)) (text : List Char) :
    Settles (marks.expand whole depth stack text) (marks.expand whole further stack text) := by
  induction depth generalizing further stack text with
  | zero => exact fun hne => absurd rfl hne
  | succ depth ih =>
    cases further with
    | zero => cases h
    | succ further =>
      exact scan_settled (fun stack text => ih (Nat.le_of_succ_le_succ h) stack text) stack text

end Marks

/-- The value of a text does not depend on the depth, if the depth is enough. -/
theorem Settings.evaluate_settled (settings : Settings) {depth further : Nat} (h : depth ≤ further)
    (text : String) : Settles (settings.evaluate depth text) (settings.evaluate further text) := by
  unfold evaluate
  split
  · exact .refl _
  · split
    · exact ((settings.marks.expand_settled text h [] text.toList).map _).map _
    · exact .refl _

end Injector
