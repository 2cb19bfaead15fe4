/-!
# Cutting a text at a mark

A mark is a fixed run of characters that separates the parts of a text. `cutAt` finds its first
occurrence; `joined_of_cutAt` says that nothing is lost.
-/

namespace Injector.Text

/-- The parts before and after the first occurrence of `mark`. -/
def cutAt (mark : List Char) : List Char → Option (List Char × List Char)
  | [] => if mark = [] then some ([], []) else none
  | c :: rest =>
    match mark.isPrefixOf? (c :: rest) with
    | some after => some ([], after)
    | none => (cutAt mark rest).map fun (before, after) => (c :: before, after)

/-- Whether `mark` occurs in the text. -/
def occursIn (mark text : List Char) : Bool :=
  (cutAt mark text).isSome

theorem isPrefixOf?_cons (m c : Char) (mark text : List Char) :
    (m :: mark).isPrefixOf? (c :: text) = if m == c then mark.isPrefixOf? text else none :=
  rfl

theorem append_of_isPrefixOf? {mark text after : List Char}
    (h : mark.isPrefixOf? text = some after) : mark ++ after = text := by
  induction mark generalizing text with
  | nil => exact (Option.some.inj h).symm
  | cons m mark ih =>
    cases text with
    | nil => cases h
    | cons c text =>
      rw [isPrefixOf?_cons] at h
      by_cases hc : m = c
      · subst hc
        rw [if_pos (beq_self_eq_true m)] at h
        rw [List.cons_append, ih h]
      · rw [if_neg (by simpa using hc)] at h
        cases h

/-- The two parts and the mark between them give the text back. -/
theorem joined_of_cutAt {mark text before after : List Char}
    (h : cutAt mark text = some (before, after)) : before ++ mark ++ after = text := by
  induction text generalizing before with
  | nil =>
    unfold cutAt at h
    split at h <;> simp_all
  | cons c rest ih =>
    unfold cutAt at h
    split at h
    · rename_i found
      simp only [Option.some.injEq, Prod.mk.injEq] at h
      obtain ⟨rfl, rfl⟩ := h
      simpa using append_of_isPrefixOf? found
    · simp only [Option.map_eq_some_iff, Prod.mk.injEq, Prod.exists] at h
      obtain ⟨b, a, hcut, rfl, rfl⟩ := h
      simpa using ih hcut

end Injector.Text
