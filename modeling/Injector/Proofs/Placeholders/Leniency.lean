import Injector.Proofs.Placeholders.Termination

/-!
# Placeholders that may stay

Settings say what becomes of a placeholder without a value: it is refused, or it stays as it is. Apart from
that they expand a text in the same way. So where the strict settings do not refuse a placeholder for want
of a value, the lenient ones come to the same, and what the lenient ones refuse is a circular reference
(`Settings.expand_lenient`).

As the expansion of a text is put together from expansions of bodies, values and rests of texts, this is a
relation between the outcomes of both (`Tolerates`) that passes through each of these.
-/

namespace Injector

namespace Marks

variable {marks : Marks} {whole : String}

/-! ## Strict and lenient marks -/

/-- The marks by which a placeholder without a value stays as it is, or by which it is refused. -/
def withLenient (marks : Marks) (lenient : Bool) : Marks :=
  { marks with lenient }

@[simp] theorem opening_withLenient (lenient : Bool) :
    (marks.withLenient lenient).opening = marks.opening :=
  rfl

@[simp] theorem value?_withLenient (lenient : Bool) (body : List Char) :
    (marks.withLenient lenient).value? body = marks.value? body :=
  rfl

/-- A closing mark ends the placeholder, or one that is open inside. -/
theorem body?_of_closing {depth : Nat} {c : Char} {text after : List Char}
    (h : marks.closing.isPrefixOf? (c :: text) = some after) :
    marks.body? depth (c :: text) =
      match depth with
      | 0 => some ([], after)
      | depth + 1 =>
        (marks.body? depth after).map fun (body, beyond) => (marks.closing ++ body, beyond) := by
  rw [body?]
  split
  · next found hfound =>
    cases h.symm.trans hfound
    rfl
  · next hnone => cases h.symm.trans hnone

/-- An opening mark opens a placeholder inside. -/
theorem body?_of_opening {depth : Nat} {c : Char} {text after : List Char}
    (hclosing : marks.closing.isPrefixOf? (c :: text) = none)
    (hopening : marks.opening.isPrefixOf? (c :: text) = some after) :
    marks.body? depth (c :: text) =
      if marks.opening = [] then none
      else
        (marks.body? (depth + 1) after).map fun (body, beyond) =>
          (marks.opening ++ body, beyond) := by
  rw [body?]
  split
  · next hfound => cases hclosing.symm.trans hfound
  · split
    · next found hfound =>
      cases hopening.symm.trans hfound
      rfl
    · next hnone => cases hopening.symm.trans hnone

/-- Where a placeholder ends does not depend on what becomes of it. -/
theorem body?_withLenient (lenient : Bool) (depth : Nat) (text : List Char) :
    (marks.withLenient lenient).body? depth text = marks.body? depth text := by
  fun_induction marks.body? depth text with
  | case1 => rw [body?]
  | case2 c rest after hclosing => exact body?_of_closing hclosing
  | case3 c rest after hclosing depth ih =>
    refine Eq.trans (body?_of_closing hclosing) ?_
    dsimp only
    rw [ih]
    rfl
  | case4 depth c rest hclosing after hopening hempty =>
    refine Eq.trans (body?_of_opening hclosing hopening) ?_
    exact if_pos hempty
  | case5 depth c rest hclosing after hopening hne ih =>
    refine Eq.trans (body?_of_opening hclosing hopening) ?_
    rw [ih]
    exact if_neg hne
  | case6 depth c rest hclosing hopening ih =>
    refine Eq.trans (body?_of_plain hclosing hopening) ?_
    rw [ih]

/-! ## Outcomes -/

/-- How lenient settings relate to strict ones: they come to the same unless the strict ones refuse a
placeholder without a value, and what they refuse themselves is a circular reference. -/
structure Tolerates (whole : String) (strict lenient : Expansion) : Prop where
  same : (∀ key, strict ≠ .error (refusal whole (.unresolvable key))) → lenient = strict
  circular : ∀ failure, lenient = .error (.failure failure) →
    ∃ key, failure = .evaluation whole (.circular key)

namespace Tolerates

theorem ok (result : List Char) : Tolerates whole (.ok result) (.ok result) :=
  ⟨fun _ => rfl, nofun⟩

theorem tooDeep : Tolerates whole (.error .tooDeep) (.error .tooDeep) :=
  ⟨fun _ => rfl, nofun⟩

theorem refusal_circular (key : String) :
    Tolerates whole (.error (refusal whole (.circular key))) (.error (refusal whole (.circular key))) :=
  ⟨fun _ => rfl, fun _ h => ⟨key, (Stop.failure.inj (Except.error.inj h)).symm⟩⟩

/-- A placeholder without a value is refused, or stays. -/
theorem unresolvable (key : String) (kept : List Char) :
    Tolerates whole (.error (refusal whole (.unresolvable key))) (.ok kept) :=
  ⟨fun h => absurd rfl (h key), nofun⟩

theorem bind {strict lenient : Expansion} {next next' : List Char → Expansion}
    (h : Tolerates whole strict lenient) (hnext : ∀ value, Tolerates whole (next value) (next' value)) :
    Tolerates whole (strict >>= next) (lenient >>= next') := by
  constructor
  · intro hne
    have hsame : lenient = strict := h.same fun key heq => hne key (by rw [heq]; rfl)
    rw [hsame]
    cases strict with
    | error stop => rfl
    | ok value => exact (hnext value).same hne
  · intro failure hfails
    cases lenient with
    | error stop => exact h.circular failure hfails
    | ok value => exact (hnext value).circular failure hfails

end Tolerates

/-! ## Expansion -/

section Nested

variable {nested nested' : List (List Char) → List Char → Expansion}
  (hnested : ∀ stack text, Tolerates whole (nested stack text) (nested' stack text))

include hnested

theorem substitute_tolerates (stack : List (List Char)) (body : List Char) :
    Tolerates whole ((marks.withLenient false).substitute whole nested stack body)
      ((marks.withLenient true).substitute whole nested' stack body) := by
  unfold substitute
  refine (hnested stack body).bind fun key => ?_
  simp only [value?_withLenient]
  split
  · exact .refusal_circular _
  · cases marks.value? key with
    | some value => exact hnested _ _
    | none => exact .unresolvable _ _

theorem scan_tolerates (stack : List (List Char)) (text : List Char) :
    Tolerates whole ((marks.withLenient false).scan whole nested stack text)
      ((marks.withLenient true).scan whole nested' stack text) := by
  rw [scan, scan]
  simp only [opening_withLenient, body?_withLenient]
  split
  · exact .ok _
  · split
    · exact .ok _
    · next body rest _ =>
      refine (substitute_tolerates hnested stack body).bind fun inserted => ?_
      split
      · exact (scan_tolerates stack rest).bind fun remainder => .ok _
      · exact .tooDeep
termination_by text.length

omit hnested in
theorem expand_tolerates (marks : Marks) (depth : Nat) (stack : List (List Char)) (text : List Char) :
    Tolerates whole ((marks.withLenient false).expand whole depth stack text)
      ((marks.withLenient true).expand whole depth stack text) := by
  induction depth generalizing stack text with
  | zero => exact .tooDeep
  | succ depth ih => exact scan_tolerates ih stack text

end Nested

end Marks

/-! ## Texts -/

namespace Settings

/-- The settings by which a placeholder without a value stays as it is, or by which it is refused. -/
def withLenient (settings : Settings) (lenient : Bool) : Settings :=
  { settings with lenient }

/-- **Letting placeholders stay is conservative.** Where the settings that refuse a placeholder without a
value expand a text, those that let it stay expand it to the same; and if these fail at all, then for a
circular reference. -/
theorem expand_lenient (settings : Settings) (depth : Nat) (text : String) :
    (∀ result, (settings.withLenient false).expand depth text = .ok result →
      (settings.withLenient true).expand depth text = .ok result) ∧
    (∀ failure, (settings.withLenient true).expand depth text = .error (.failure failure) →
      ∃ key, failure = .evaluation text (.circular key)) := by
  have h : Marks.Tolerates text ((settings.withLenient false).marks.expand text depth [] text.toList)
      ((settings.withLenient true).marks.expand text depth [] text.toList) :=
    Marks.expand_tolerates settings.marks depth [] text.toList
  unfold expand
  constructor
  · intro result hstrict
    rw [h.same fun key heq => ?_]
    · exact hstrict
    · rw [heq] at hstrict
      cases hstrict
  · intro failure hfails
    refine h.circular failure ?_
    rcases hlenient : (settings.withLenient true).marks.expand text depth [] text.toList with stop | letters
    · rw [hlenient] at hfails
      exact congrArg Except.error (Except.error.inj hfails)
    · rw [hlenient] at hfails
      cases hfails

end Settings

end Injector
