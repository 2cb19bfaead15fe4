import Injector.Conversion
import Injector.Proofs.Values.Integers
import Mathlib.Data.List.DropRight

/-!
# Texts and scalars

What a text is converted to is read from its core, which is left of it without the blank characters at its
ends (`Text.trimmed_eq_iff`). A text is taken for an integer exactly if its core writes one that 64 bits
can hold.

Converting loses nothing (`Conversion.simple_lossless`): integers, booleans and characters are had back
from their texts, and what a value was converted to is accepted by the type, so that it stays as it is if
it is converted again.
-/

namespace Injector

/-! ## Blank characters at the ends -/

namespace Text

/-- A text is made up of blank characters, its core and blank characters again, and the core neither begins
nor ends with a blank one. -/
structure IsCore (text core : List Char) : Prop where
  framed : ∃ before after, text = before ++ core ++ after ∧
    (∀ c ∈ before, isBlank c = true) ∧ ∀ c ∈ after, isBlank c = true
  first : ∀ c ∈ core.head?, isBlank c = false
  last : ∀ c ∈ core.getLast?, isBlank c = false

/-- Taking off the blank characters leaves a core. -/
theorem isCore_trimmed (text : List Char) : IsCore text (trimmed text) := by
  have hprefix : trimmed text <+: text.dropWhile isBlank := List.rdropWhile_prefix isBlank _
  refine ⟨⟨text.takeWhile isBlank, (text.dropWhile isBlank).rtakeWhile isBlank, ?_, ?_, ?_⟩, ?_, ?_⟩
  · have hrest : trimmed text ++ (text.dropWhile isBlank).rtakeWhile isBlank =
        text.dropWhile isBlank := List.rdropWhile_append_rtakeWhile
    rw [List.append_assoc, hrest, List.takeWhile_append_dropWhile]
  · exact fun c hc => List.mem_takeWhile_imp hc
  · exact fun c hc => List.mem_rtakeWhile_imp hc
  · intro c hc
    obtain ⟨rest, hcore⟩ : ∃ rest, trimmed text = c :: rest := List.head?_eq_some_iff.mp hc
    obtain ⟨after, hafter⟩ := hprefix
    have hnot := List.head?_dropWhile_not isBlank text
    rw [← hafter, hcore] at hnot
    exact hnot
  · intro c hc
    have hne : trimmed text ≠ [] := by
      intro hnil
      rw [hnil] at hc
      cases hc
    have hlast := List.rdropWhile_last_not isBlank (text.dropWhile isBlank) hne
    have hc' : (trimmed text).getLast hne = c := by
      rw [List.getLast?_eq_some_getLast hne] at hc
      exact Option.some.inj hc
    rw [← hc']
    exact Bool.eq_false_iff.mpr hlast

/-- Blank characters in front of what is not blank are dropped. -/
theorem dropWhile_blank {before core : List Char} (hbefore : ∀ c ∈ before, isBlank c = true)
    (hfirst : ∀ c ∈ core.head?, isBlank c = false) :
    (before ++ core).dropWhile isBlank = core := by
  rw [List.dropWhile_append_of_pos hbefore]
  cases core with
  | nil => rfl
  | cons c rest =>
    refine List.dropWhile_cons_of_neg ?_
    rw [hfirst c rfl]
    decide

/-- **A text has one core, which is what trimming leaves.** -/
theorem trimmed_eq_iff {text core : List Char} : trimmed text = core ↔ IsCore text core := by
  constructor
  · rintro rfl
    exact isCore_trimmed text
  · rintro ⟨⟨before, after, rfl, hbefore, hafter⟩, hfirst, hlast⟩
    unfold trimmed
    cases core with
    | nil =>
      have hall : ∀ c ∈ before ++ [] ++ after, isBlank c = true := by
        intro c hc
        rw [List.append_nil] at hc
        exact (List.mem_append.mp hc).elim (hbefore c) (hafter c)
      rw [List.dropWhile_eq_nil_iff.mpr hall]
      rfl
    | cons c rest =>
      have hfront : (before ++ (c :: rest ++ after)).dropWhile isBlank = c :: rest ++ after :=
        dropWhile_blank hbefore hfirst
      rw [List.append_assoc, hfront, List.reverse_append, dropWhile_blank, List.reverse_reverse]
      · exact fun c hc => hafter c (List.mem_reverse.mp hc)
      · intro c hc
        rw [List.head?_reverse] at hc
        exact hlast c hc

/-- A text without blank characters is its own core. -/
theorem trimmed_of_no_blank {text : List Char} (h : ∀ c ∈ text, isBlank c = false) :
    trimmed text = text := by
  refine trimmed_eq_iff.mpr ⟨⟨[], [], by simp, by simp, by simp⟩, ?_, ?_⟩
  · exact fun c hc => h c (List.mem_of_mem_head? hc)
  · exact fun c hc => h c (List.mem_of_getLast? hc)

/-- A digit is not blank. -/
theorem not_isBlank_of_isDigit {c : Char} (h : c.isDigit = true) : isBlank c = false := by
  have hrange := Char.isDigit_iff_toNat.mp h
  have hzero : '0'.toNat = 48 := rfl
  have hnine : '9'.toNat = 57 := rfl
  simp only [isBlank, blankRanges, List.any_cons, List.any_nil, Bool.or_false, Bool.or_eq_false_iff,
    Bool.and_eq_false_iff, decide_eq_false_iff_not]
  omega

end Text

/-! ## Integers -/

namespace Number

/-- The faults are told apart by their wordings. -/
theorem IntegerFault.message_injective : Function.Injective IntegerFault.message := by
  intro first second h
  revert h
  cases first <;> cases second <;> decide

/-- There is nothing blank in what writes an integer. -/
theorem Writes.not_isBlank {text : List Char} {n : Int} (h : Writes text n) :
    ∀ c ∈ text, Text.isBlank c = false := by
  have hdigits {digits : List Char} (h : IsNumeral digits) : ∀ c ∈ digits, Text.isBlank c = false :=
    fun c hc => Text.not_isBlank_of_isDigit (h.2 c hc)
  cases h with
  | unsigned h => exact hdigits h
  | plus h => exact List.forall_mem_cons.mpr ⟨by decide, hdigits h⟩
  | minus h => exact List.forall_mem_cons.mpr ⟨by decide, hdigits h⟩

end Number

namespace Conversion

/-- A text is converted to the integer that is read from its core. -/
theorem simple_text_int (text : String) :
    simple (.text text) .int =
      match Number.readInteger (Text.trimmed text.toList) with
      | .ok n => .ok (.int (Int64.ofInt n))
      | .error fault => .error (.typeMismatch text "int" (.integer fault)) := by
  unfold simple
  rw [if_neg (show ¬ ValueType.int.accepts (.text text) = true from Bool.false_ne_true)]
  unfold change ofText
  dsimp only
  cases Number.readInteger (Text.trimmed text.toList) with
  | ok n => rfl
  | error fault =>
    dsimp only
    unfold Value.toText
    rfl

/-- What a text is read as is accepted by the type. -/
theorem accepts_of_ofText {text : String} {type : ValueType} {result : Value}
    (h : ofText text type = .ok result) : type.accepts result = true := by
  unfold ofText at h
  split at h
  · split at h <;> cases h
    rfl
  · split at h <;> cases h
    rfl
  · split at h <;> cases h
    rfl
  · split at h <;> cases h
    rfl
  · cases h

/-- **What a value is converted to is accepted by the type.** -/
theorem accepts_of_simple {value result : Value} {type : ValueType} (h : simple value type = .ok result) :
    type.accepts result = true := by
  unfold simple at h
  split at h
  · next haccepts =>
    cases h
    exact haccepts
  · split at h <;> cases h
    next hchange =>
      unfold change at hchange
      split at hchange
      · exact accepts_of_ofText hchange
      all_goals cases hchange
      all_goals rfl

/-- A value that the type accepts stays as it is. -/
theorem simple_of_accepts {value : Value} {type : ValueType} (h : type.accepts value = true) :
    simple value type = .ok value :=
  if_pos h

/-- A value that the type does not accept becomes what it is changed to. -/
theorem simple_of_change {value result : Value} {type : ValueType} (haccepts : type.accepts value = false)
    (h : change value type = .ok result) : simple value type = .ok result := by
  unfold simple
  rw [haccepts, h]
  rfl

/-! ## Nothing is lost -/

/-- The integers of 64 bits are those of the range. -/
theorem toInt_range (n : Int64) : Number.least ≤ n.toInt ∧ n.toInt ≤ Number.greatest := by
  have hleast := n.le_toInt
  have hgreatest := n.toInt_lt
  unfold Number.least Number.greatest
  omega

/-- A text is converted to an integer exactly if it writes one of the range. -/
theorem simple_text_int_eq_ok_iff {text : String} {result : Value} :
    simple (.text text) .int = .ok result ↔
      ∃ n, Number.Writes (Text.trimmed text.toList) n ∧ Number.least ≤ n ∧ n ≤ Number.greatest ∧
        result = .int (Int64.ofInt n) := by
  rw [simple_text_int]
  constructor
  · intro h
    split at h
    · next n hread =>
      cases h
      obtain ⟨hwrites, hleast, hgreatest⟩ := Number.readInteger_eq_ok_iff.mp hread
      exact ⟨n, hwrites, hleast, hgreatest, rfl⟩
    · cases h
  · rintro ⟨n, hwrites, hleast, hgreatest, rfl⟩
    rw [Number.readInteger_eq_ok_iff.mpr ⟨hwrites, hleast, hgreatest⟩]

/-- A text is not converted to an integer for the fault of what is left of it without blank ends. -/
theorem simple_text_int_eq_error_iff {text : String} {failure : Failure} :
    simple (.text text) .int = .error failure ↔
      ∃ fault, Number.Refused (Text.trimmed text.toList) fault ∧
        failure = .typeMismatch text "int" (.integer fault) := by
  rw [simple_text_int]
  constructor
  · intro h
    split at h
    · cases h
    · next fault hread =>
      cases h
      exact ⟨fault, Number.readInteger_eq_error_iff.mp hread, rfl⟩
  · rintro ⟨fault, hrefused, rfl⟩
    rw [Number.readInteger_eq_error_iff.mpr hrefused]

/-- A value is converted to its text, and had back from it. -/
def ReadsBack (value : Value) (type : ValueType) : Prop :=
  simple value .text = .ok (.text value.toText) ∧ simple (.text value.toText) type = .ok value

theorem readsBack_int (n : Int64) : ReadsBack (.int n) .int := by
  refine ⟨simple_of_change rfl rfl, ?_⟩
  have htext : (Value.int n).toText = Number.integerText n.toInt := by
    unfold Value.toText
    rfl
  have hwrites := Number.writes_integerText n.toInt
  rw [htext, simple_text_int_eq_ok_iff, Text.trimmed_of_no_blank hwrites.not_isBlank]
  exact ⟨n.toInt, hwrites, (toInt_range n).1, (toInt_range n).2, by rw [Int64.ofInt_toInt]⟩

theorem readsBack_bool (value : Bool) : ReadsBack (.bool value) .bool := by
  have hread : boolean? (Value.bool value).toText = some value := by
    cases value <;> decide +kernel
  refine ⟨simple_of_change rfl rfl, simple_of_change rfl ?_⟩
  unfold change ofText
  dsimp only
  rw [hread]

theorem readsBack_char (c : Char) : ReadsBack (.char c) .char := by
  have htext : (Value.char c).toText.toList = [c] := by
    unfold Value.toText
    exact String.toList_singleton c
  refine ⟨simple_of_change rfl rfl, simple_of_change rfl ?_⟩
  unfold change ofText
  dsimp only
  rw [htext]

/-- **Converting loses nothing.** A text becomes an integer exactly if its core writes one that 64 bits can
hold, and then it becomes that integer; else the failure tells the text, the type and the fault that comes
first, each fault in words of its own. Integers, booleans and characters are had back from their texts. And
whatever was converted is accepted by the type, so that converting it again changes nothing. -/
theorem simple_lossless :
    (∀ text core, Text.trimmed text = core ↔ Text.IsCore text core) ∧
    (∀ text n, simple (.text text) .int = .ok (.int n) ↔
      Number.Writes (Text.trimmed text.toList) n.toInt) ∧
    (∀ text, (∃ result, simple (.text text) .int = .ok result) ↔
      ∃ n, Number.Writes (Text.trimmed text.toList) n ∧
        -9223372036854775808 ≤ n ∧ n ≤ 9223372036854775807) ∧
    (∀ text failure, simple (.text text) .int = .error failure ↔
      ∃ fault, Number.Refused (Text.trimmed text.toList) fault ∧
        failure = .typeMismatch text "int" (.integer fault)) ∧
    Function.Injective (fun fault => (MismatchFault.integer fault).message) ∧
    (∀ n, ReadsBack (.int n) .int) ∧ (∀ value, ReadsBack (.bool value) .bool) ∧
    (∀ c, ReadsBack (.char c) .char) ∧
    ∀ value type result, simple value type = .ok result →
      type.accepts result = true ∧ simple result type = .ok result := by
  refine ⟨fun _ _ => Text.trimmed_eq_iff, fun text n => ?_, fun text => ?_,
    fun _ _ => simple_text_int_eq_error_iff, Number.IntegerFault.message_injective, readsBack_int,
    readsBack_bool, readsBack_char, fun value type result h => ?_⟩
  · rw [simple_text_int_eq_ok_iff]
    constructor
    · rintro ⟨m, hwrites, hleast, hgreatest, heq⟩
      cases heq
      unfold Number.least at hleast
      unfold Number.greatest at hgreatest
      rwa [Int64.toInt_ofInt_of_le (by omega) (by omega)]
    · intro hwrites
      exact ⟨n.toInt, hwrites, (toInt_range n).1, (toInt_range n).2, by rw [Int64.ofInt_toInt]⟩
  · constructor
    · rintro ⟨result, h⟩
      obtain ⟨n, hwrites, hleast, hgreatest, -⟩ := simple_text_int_eq_ok_iff.mp h
      exact ⟨n, hwrites, hleast, hgreatest⟩
    · rintro ⟨n, hwrites, hleast, hgreatest⟩
      exact ⟨_, simple_text_int_eq_ok_iff.mpr ⟨n, hwrites, hleast, hgreatest, rfl⟩⟩
  · have haccepts := accepts_of_simple h
    exact ⟨haccepts, simple_of_accepts haccepts⟩

/-- The least integer, with a zero too many and blank characters around it that are not those of ASCII, is
converted and then stays as it is. One farther away from zero is too small, and not because of the letter
behind its digits. -/
theorem simple_lossless_least :
    simple (.text "\u00a0-09223372036854775808\u2003") .int = .ok (.int Int64.minValue) ∧
      ValueType.int.accepts (.int Int64.minValue) = true ∧
      simple (.int Int64.minValue) .int = .ok (.int Int64.minValue) ∧
      simple (.text "-9223372036854775809x") .int =
        .error (.typeMismatch "-9223372036854775809x" "int" (.integer .tooSmall)) := by
  obtain ⟨-, hread, -, hrefused, -, -, -, -, hstays⟩ := simple_lossless
  have hcore : Text.trimmed "\u00a0-09223372036854775808\u2003".toList =
      '-' :: "09223372036854775808".toList := by decide +kernel
  have hconverted : simple (.text "\u00a0-09223372036854775808\u2003") .int =
      .ok (.int Int64.minValue) := by
    rw [hread, hcore]
    exact .minus (by decide +kernel)
  have hcore' : Text.trimmed "-9223372036854775809x".toList =
      ('-' :: "9223372036854775809".toList) ++ ['x'] := by decide +kernel
  have hbeyond : Number.Refused (Text.trimmed "-9223372036854775809x".toList) .tooSmall := by
    rw [hcore']
    exact .tooSmall (List.prefix_append _ _) (.minus (by decide +kernel)) (by decide +kernel)
  obtain ⟨haccepted, hsame⟩ := hstays _ _ _ hconverted
  exact ⟨hconverted, haccepted, hsame, (hrefused _ _).mpr ⟨_, hbeyond, rfl⟩⟩

end Conversion

end Injector
