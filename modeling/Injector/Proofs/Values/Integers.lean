import Injector.Number.Reading
import Mathlib.Data.List.TakeWhile
import Mathlib.Tactic.SplitIfs

/-!
# Integers in texts

A text writes an integer if it has decimal digits, of which there is at least one, behind a sign that may
be left out (`Number.Writes`). Zeros may stand before the digits that count, so an integer is written in
many ways, but a text writes one integer at most.

Reading goes digit by digit and stops at the first character that settles the matter. What it comes to can
be told without the loop: it is the digits in front that count, and what is behind them matters only if
they stay within the range (`Number.readInteger_eq`). So exactly those texts are read that write a 64-bit
signed integer (`Number.readInteger_eq_ok_iff`), and each other text is refused for the fault that comes
first (`Number.readInteger_eq_error_iff`).
-/

namespace Injector.Number

/-! ## What a text writes -/

/-- Decimal digits, of which there is at least one. -/
def IsNumeral (digits : List Char) : Prop :=
  digits ≠ [] ∧ ∀ c ∈ digits, c.isDigit = true

instance (digits : List Char) : Decidable (IsNumeral digits) :=
  decidable_of_iff ((!digits.isEmpty && digits.all Char.isDigit) = true) (by simp [IsNumeral])

/-- A text writes an integer. -/
inductive Writes : List Char → Int → Prop
  | unsigned {digits : List Char} (h : IsNumeral digits) : Writes digits (Nat.ofDigitChars 10 digits 0)
  | plus {digits : List Char} (h : IsNumeral digits) :
    Writes ('+' :: digits) (Nat.ofDigitChars 10 digits 0)
  | minus {digits : List Char} (h : IsNumeral digits) :
    Writes ('-' :: digits) (-Nat.ofDigitChars 10 digits 0)

/-- A natural, away from zero on the side of a sign. -/
def signed (negative : Bool) (n : Nat) : Int :=
  if negative then -n else n

/-- Whether a minus sign comes first. -/
def isNegative (text : List Char) : Bool :=
  text.head? == some '-'

/-- What is behind the sign of a text, if it has one. -/
def behindSign : List Char → List Char
  | '+' :: rest => rest
  | '-' :: rest => rest
  | text => text

/-- A text begins with a sign or has none. -/
theorem sign_cases (text : List Char) :
    (∃ rest, text = '+' :: rest) ∨ (∃ rest, text = '-' :: rest) ∨
      (behindSign text = text ∧ isNegative text = false ∧
        readInteger text = if text = [] then .error .empty else readDigits false text) := by
  rcases text with _ | ⟨c, rest⟩
  · exact .inr (.inr ⟨rfl, rfl, rfl⟩)
  · by_cases hplus : c = '+'
    · exact .inl ⟨rest, by rw [hplus]⟩
    · by_cases hminus : c = '-'
      · exact .inr (.inl ⟨rest, by rw [hminus]⟩)
      · refine .inr (.inr ⟨?_, ?_, ?_⟩)
        · simp [behindSign, hplus, hminus]
        · simp [isNegative, hminus]
        · simp [readInteger, hplus, hminus]

/-- Behind the sign of a text any digits may stand. -/
theorem exists_sign (text : List Char) :
    ∃ sign, text = sign ++ behindSign text ∧ ∀ digits, IsNumeral digits →
      Writes (sign ++ digits) (signed (isNegative text) (Nat.ofDigitChars 10 digits 0)) := by
  rcases sign_cases text with ⟨rest, rfl⟩ | ⟨rest, rfl⟩ | ⟨hbehind, hsign, -⟩
  · exact ⟨['+'], rfl, fun digits h => .plus h⟩
  · exact ⟨['-'], rfl, fun digits h => .minus h⟩
  · rw [hbehind, hsign]
    exact ⟨[], rfl, fun digits h => .unsigned h⟩

/-- What comes behind a text with digits does not change its sign. -/
theorem Writes.append {text : List Char} {n : Int} (h : Writes text n) (rest : List Char) :
    IsNumeral (behindSign text) ∧ n = signed (isNegative (text ++ rest))
      (Nat.ofDigitChars 10 (behindSign text) 0) ∧
      behindSign (text ++ rest) = behindSign text ++ rest := by
  cases h with
  | plus h => exact ⟨h, rfl, rfl⟩
  | minus h => exact ⟨h, rfl, rfl⟩
  | unsigned h =>
    obtain ⟨c, digits, rfl⟩ := List.exists_cons_of_ne_nil h.1
    have hc := h.2 c List.mem_cons_self
    have hplus : c ≠ '+' := by rintro rfl; cases hc
    have hminus : c ≠ '-' := by rintro rfl; cases hc
    have hbehind (rest : List Char) : behindSign (c :: rest) = c :: rest := by
      simp [behindSign, hplus, hminus]
    have hsign : isNegative (c :: digits ++ rest) = false := by simp [isNegative, hminus]
    rw [List.cons_append, hbehind, hbehind, ← List.cons_append, hsign]
    exact ⟨h, rfl, rfl⟩

/-- The integer that the digits write which stand at the beginning of a text, behind its sign. -/
def leading (text : List Char) : Int :=
  signed (isNegative text) (Nat.ofDigitChars 10 ((behindSign text).takeWhile Char.isDigit) 0)

/-- **A text writes what its first digits do, if there is nothing else behind its sign.** -/
theorem writes_iff {text : List Char} {n : Int} :
    Writes text n ↔ IsNumeral (behindSign text) ∧ n = leading text := by
  unfold leading
  constructor
  · intro h
    obtain ⟨hnumeral, hn, -⟩ := h.append []
    rw [List.append_nil] at hn
    rw [List.takeWhile_eq_self_iff.mpr hnumeral.2]
    exact ⟨hnumeral, hn⟩
  · rintro ⟨hnumeral, rfl⟩
    rw [List.takeWhile_eq_self_iff.mpr hnumeral.2]
    obtain ⟨sign, htext, hwrites⟩ := exists_sign text
    have h := hwrites _ hnumeral
    rwa [← htext] at h

/-- A text writes one integer at most. -/
theorem Writes.unique {text : List Char} {first second : Int} (h : Writes text first)
    (h' : Writes text second) : first = second := by
  rw [(writes_iff.mp h).2, (writes_iff.mp h').2]

/-- The text of an integer writes it. -/
theorem writes_integerText (n : Int) : Writes (integerText n).toList n := by
  have hnumeral : IsNumeral (Nat.toDigits 10 n.natAbs) :=
    ⟨Nat.toDigits_ne_nil, fun c hc => Nat.isDigit_of_mem_toDigits (by decide) (by decide) hc⟩
  have hvalue : Nat.ofDigitChars 10 (Nat.toDigits 10 n.natAbs) 0 = n.natAbs :=
    Nat.ofDigitChars_toDigits (by decide) (by decide)
  unfold integerText
  rw [String.toList_ofList]
  split
  · have h := Writes.minus hnumeral
    rwa [hvalue, show -(n.natAbs : Int) = n by omega] at h
  · have h := Writes.unsigned hnumeral
    rwa [hvalue, show (n.natAbs : Int) = n by omega] at h

/-- Different integers have different texts. -/
theorem integerText_injective {first second : Int} (h : integerText first = integerText second) :
    first = second := by
  have hfirst := writes_integerText first
  rw [h] at hfirst
  exact hfirst.unique (writes_integerText second)

/-! ## Reading -/

/-- Digits lead away from zero. -/
theorem le_ofDigitChars (digits : List Char) (n : Nat) : n ≤ Nat.ofDigitChars 10 digits n := by
  induction digits generalizing n with
  | nil => exact Nat.le_refl n
  | cons c digits ih =>
    rw [Nat.ofDigitChars_cons]
    exact Nat.le_trans (by omega) (ih _)

/-- The integers beyond one end of the range, of which zero is none. Farther away from zero is beyond the
same end. -/
structure IsBeyond (beyond : Int → Prop) : Prop where
  not_zero : ¬ beyond 0
  mono : ∀ {negative : Bool} {n m : Nat}, n ≤ m → beyond (signed negative n) → beyond (signed negative m)

theorem isBeyond_least : IsBeyond (· < least) where
  not_zero := by decide
  mono {negative n m} hle h := by
    unfold signed least at *
    cases negative <;> simp only [if_true, if_false, Bool.false_eq_true] at h ⊢ <;> omega

theorem isBeyond_greatest : IsBeyond (greatest < ·) where
  not_zero := by decide
  mono {negative n m} hle h := by
    unfold signed greatest at *
    cases negative <;> simp only [if_true, if_false, Bool.false_eq_true] at h ⊢ <;> omega

/-- What reading comes to, by the integer that the first digits write and by whether they are all there
is. -/
def verdict (n : Int) (complete : Bool) : Except IntegerFault Int :=
  if n < least then .error .tooSmall
  else if greatest < n then .error .tooLarge
  else if complete then .ok n
  else .error .invalidDigit

theorem verdict_of_lt {n : Int} (h : n < least) (complete : Bool) :
    verdict n complete = .error .tooSmall :=
  if_pos h

theorem verdict_of_gt {n : Int} (h : greatest < n) (complete : Bool) :
    verdict n complete = .error .tooLarge := by
  have hleast : ¬ n < least := by
    unfold least greatest at *
    omega
  unfold verdict
  rw [if_neg hleast, if_pos h]

/-- Going on with the digits of a text from a number within the range. A digit leads away from zero, so the
range is left with the digits that follow if it is left with the first of them. -/
theorem accumulate_eq (negative : Bool) (text : List Char) {n : Nat}
    (hleast : ¬ signed negative n < least) (hgreatest : ¬ greatest < signed negative n) :
    accumulate negative (signed negative n) text =
      verdict (signed negative (Nat.ofDigitChars 10 (text.takeWhile Char.isDigit) n))
        (text.all Char.isDigit) := by
  induction text generalizing n with
  | nil => simp [accumulate, verdict, hleast, hgreatest]
  | cons c rest ih =>
    by_cases hc : c.isDigit = true
    · have hdigit : digit? c = some (c.toNat - '0'.toNat) := if_pos hc
      have hnext : (if negative then 10 * signed negative n - (c.toNat - '0'.toNat : Nat)
          else 10 * signed negative n + (c.toNat - '0'.toNat : Nat)) =
            signed negative (10 * n + (c.toNat - '0'.toNat)) := by
        unfold signed
        split <;> omega
      rw [List.takeWhile_cons_of_pos hc, Nat.ofDigitChars_cons, List.all_cons, hc, Bool.true_and,
        accumulate, hdigit]
      dsimp only
      rw [hnext]
      generalize 10 * n + (c.toNat - '0'.toNat) = next
      have hle := le_ofDigitChars (rest.takeWhile Char.isDigit) next
      by_cases hsmall : signed negative next < least
      · rw [if_pos hsmall, verdict_of_lt (isBeyond_least.mono hle hsmall)]
      · by_cases hlarge : greatest < signed negative next
        · rw [if_neg hsmall, if_pos hlarge, verdict_of_gt (isBeyond_greatest.mono hle hlarge)]
        · rw [if_neg hsmall, if_neg hlarge, ih hsmall hlarge]
    · have hdigit : digit? c = none := if_neg hc
      simp [accumulate, verdict, hdigit, hc, hleast, hgreatest]

theorem readDigits_eq (negative : Bool) (digits : List Char) :
    readDigits negative digits =
      verdict (signed negative (Nat.ofDigitChars 10 (digits.takeWhile Char.isDigit) 0))
        (decide (IsNumeral digits)) := by
  have hzero : signed negative 0 = 0 := by cases negative <;> rfl
  unfold readDigits
  split
  · next hnil =>
    rw [hnil]
    cases negative <;> rfl
  · next hne =>
    have hcomplete : decide (IsNumeral digits) = digits.all Char.isDigit := by
      rw [Bool.eq_iff_iff, decide_eq_true_iff, List.all_eq_true]
      exact and_iff_right hne
    rw [hcomplete, ← hzero]
    exact accumulate_eq negative digits (by rw [hzero]; decide) (by rw [hzero]; decide)

/-- **What reading comes to is settled by the digits in front.** -/
theorem readInteger_eq (text : List Char) :
    readInteger text =
      if text = [] then .error .empty
      else verdict (leading text) (decide (IsNumeral (behindSign text))) := by
  unfold leading
  rcases sign_cases text with ⟨rest, rfl⟩ | ⟨rest, rfl⟩ | ⟨hbehind, hsign, hread⟩
  · exact readDigits_eq false rest
  · exact readDigits_eq true rest
  · rw [hbehind, hsign, hread, readDigits_eq]

/-- **Exactly what writes an integer of the range is read**, as that integer. -/
theorem readInteger_eq_ok_iff {text : List Char} {n : Int} :
    readInteger text = .ok n ↔ Writes text n ∧ least ≤ n ∧ n ≤ greatest := by
  rw [readInteger_eq, writes_iff]
  unfold verdict
  constructor
  · intro h
    split_ifs at h with hnil hleast hgreatest hnumeral
    cases h
    exact ⟨⟨of_decide_eq_true hnumeral, rfl⟩, Int.not_lt.mp hleast, Int.not_lt.mp hgreatest⟩
  · rintro ⟨⟨hnumeral, rfl⟩, hleast, hgreatest⟩
    have hne : text ≠ [] := by
      rintro rfl
      exact hnumeral.1 rfl
    rw [if_neg hne, if_neg (Int.not_lt.mpr hleast), if_neg (Int.not_lt.mpr hgreatest),
      if_pos (decide_eq_true hnumeral)]

/-! ## Faults -/

/-- Why a text is refused. Digits that lead out of the range are a fault whatever is behind them. If there
is no such fault, then the text is empty, or there is something else than digits, or nothing, behind its
sign. -/
inductive Refused (text : List Char) : IntegerFault → Prop
  | empty (h : text = []) : Refused text .empty
  | tooLarge {lead : List Char} {n : Int} (hlead : lead <+: text) (hwrites : Writes lead n)
    (hn : greatest < n) : Refused text .tooLarge
  | tooSmall {lead : List Char} {n : Int} (hlead : lead <+: text) (hwrites : Writes lead n)
    (hn : n < least) : Refused text .tooSmall
  | invalidDigit (hne : text ≠ []) (hnone : ∀ n, ¬ Writes text n)
    (hrange : ∀ lead n, lead <+: text → Writes lead n → least ≤ n ∧ n ≤ greatest) :
    Refused text .invalidDigit

/-- A text leads beyond an end of the range as soon as its digits do. -/
theorem exists_writes_iff {beyond : Int → Prop} (h : IsBeyond beyond) (text : List Char) :
    (∃ lead n, lead <+: text ∧ Writes lead n ∧ beyond n) ↔ beyond (leading text) := by
  constructor
  · rintro ⟨lead, n, ⟨rest, rfl⟩, hwrites, hbeyond⟩
    obtain ⟨hnumeral, rfl, hbehind⟩ := hwrites.append rest
    unfold leading
    rw [hbehind, List.takeWhile_append_of_pos hnumeral.2, Nat.ofDigitChars_append]
    exact h.mono (le_ofDigitChars _ _) hbeyond
  · intro hbeyond
    obtain ⟨sign, htext, hwrites⟩ := exists_sign text
    have hnumeral : IsNumeral ((behindSign text).takeWhile Char.isDigit) := by
      refine ⟨fun hnil => h.not_zero ?_, fun c hc => List.mem_takeWhile_imp hc⟩
      have hzero : leading text = 0 := by
        unfold leading signed
        rw [hnil]
        split <;> rfl
      rwa [hzero] at hbeyond
    refine ⟨_, _, ?_, hwrites _ hnumeral, hbeyond⟩
    conv => rhs; rw [htext]
    exact (List.prefix_append_right_inj sign).mpr (List.takeWhile_prefix _)

/-- **A text that is not read is refused for the first fault that it has.** -/
theorem readInteger_eq_error_iff {text : List Char} {fault : IntegerFault} :
    readInteger text = .error fault ↔ Refused text fault := by
  have hsmall := exists_writes_iff isBeyond_least text
  have hlarge := exists_writes_iff isBeyond_greatest text
  rw [readInteger_eq]
  constructor
  · intro h
    unfold verdict at h
    split_ifs at h with hnil hleast hgreatest hnumeral <;> cases h
    · exact .empty hnil
    · obtain ⟨lead, n, hlead, hwrites, hn⟩ := hsmall.mpr hleast
      exact .tooSmall hlead hwrites hn
    · obtain ⟨lead, n, hlead, hwrites, hn⟩ := hlarge.mpr hgreatest
      exact .tooLarge hlead hwrites hn
    · refine .invalidDigit hnil (fun n hwrites => hnumeral (decide_eq_true (writes_iff.mp hwrites).1))
        fun lead n hlead hwrites => ⟨Int.not_lt.mp fun hn => ?_, Int.not_lt.mp fun hn => ?_⟩
      · exact hleast (hsmall.mp ⟨lead, n, hlead, hwrites, hn⟩)
      · exact hgreatest (hlarge.mp ⟨lead, n, hlead, hwrites, hn⟩)
  · have hne {beyond : Int → Prop} (h : IsBeyond beyond) (hbeyond : beyond (leading text)) :
        text ≠ [] := by
      rintro rfl
      exact h.not_zero hbeyond
    rintro (hnil | ⟨hlead, hwrites, hn⟩ | ⟨hlead, hwrites, hn⟩ | ⟨hnil, hnone, hrange⟩)
    · rw [if_pos hnil]
    · have hbeyond := hlarge.mp ⟨_, _, hlead, hwrites, hn⟩
      rw [if_neg (hne isBeyond_greatest hbeyond), verdict_of_gt hbeyond]
    · have hbeyond := hsmall.mp ⟨_, _, hlead, hwrites, hn⟩
      rw [if_neg (hne isBeyond_least hbeyond), verdict_of_lt hbeyond]
    · -- no leading digits are out of range, and the whole is no numeral
      have hleast : ¬ leading text < least := by
        intro hbeyond
        obtain ⟨lead, n, hlead, hwrites, hn⟩ := hsmall.mpr hbeyond
        exact Int.not_lt.mpr (hrange lead n hlead hwrites).1 hn
      have hgreatest : ¬ greatest < leading text := by
        intro hbeyond
        obtain ⟨lead, n, hlead, hwrites, hn⟩ := hlarge.mpr hbeyond
        exact Int.not_lt.mpr (hrange lead n hlead hwrites).2 hn
      have hnumeral : ¬ IsNumeral (behindSign text) := fun hnumeral =>
        hnone _ (writes_iff.mpr ⟨hnumeral, rfl⟩)
      unfold verdict
      rw [if_neg hnil, if_neg hleast, if_neg hgreatest, if_neg (by simpa using hnumeral)]

end Injector.Number
