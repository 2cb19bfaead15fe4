import Injector.Proofs.Placeholders.Templates

/-!
# Placeholders with defaults

A placeholder may bring a default for the case that its key has no value. The body of a placeholder is
expanded before it is divided into key and default, because a key may have placeholders in it. So the
default is expanded in any case, and if that fails, so does the placeholder, even if its key has a value.

Other than that a default does not matter where the key has a value: at every depth, the placeholder
comes to what expanding its default comes to, with the value of the key in place of the result
(`Settings.expand_default`).

* `Marks.body?_of_balanced` says where a placeholder ends whose body has others in it.
* `Marks.scan_behind` takes literal text off the front of what is expanded.
* `Marks.expand_about` says what a failure has to do with the text that is expanded as a whole.
-/

namespace Injector

/-! ## Balanced texts -/

/-- Whether each placeholder that is opened in the text is closed and nothing else is, where some are open
already. -/
def balancedFrom : Nat → List Char → Bool
  | depth, '$' :: '{' :: rest => balancedFrom (depth + 1) rest
  | 0, '}' :: _ => false
  | depth + 1, '}' :: rest => balancedFrom depth rest
  | depth, _ :: rest => balancedFrom depth rest
  | depth, [] => depth == 0

/-- A character at which no mark stands is passed. -/
theorem balancedFrom_plain {c : Char} {text : List Char} (hopening : ¬ ['$', '{'] <+: c :: text)
    (hclosing : c ≠ '}') (depth : Nat) : balancedFrom depth (c :: text) = balancedFrom depth text := by
  rw [balancedFrom]
  · rintro rest rfl rfl
    exact hopening ⟨rest, rfl⟩
  · rintro rfl rfl
    exact hclosing rfl
  · rintro depth rfl rfl
    exact hclosing rfl

/-- Text without marks does not matter, if a colon follows. -/
theorem balancedFrom_behind {key : List Char} (hopening : ¬ ['$', '{'] <:+: key)
    (hclosing : '}' ∉ key) (depth : Nat) (text : List Char) :
    balancedFrom depth (key ++ ':' :: text) = balancedFrom depth text := by
  induction key with
  | nil => exact balancedFrom_plain (by simp) (by decide) depth
  | cons c key ih =>
    rw [List.mem_cons, not_or] at hclosing
    have hnone := Template.isPrefixOf?_literal (fun hprefix => hopening hprefix.isInfix)
      (show ':' ≠ '{' by decide) text
    rw [List.cons_append, balancedFrom_plain ?_ (Ne.symm hclosing.1),
      ih (fun hinfix => hopening (List.infix_cons hinfix)) hclosing.2]
    rintro ⟨rest, hrest⟩
    rw [← hrest] at hnone
    cases hnone

/-- Whether the marks of placeholders in the text belong together. -/
def IsBalanced (text : String) : Prop :=
  balancedFrom 0 text.toList = true

instance (text : String) : Decidable (IsBalanced text) :=
  inferInstanceAs (Decidable (_ = true))

namespace Marks

variable {marks : Marks} {whole : String}

section Usual

variable (hopening : marks.opening = ['$', '{']) (hclosing : marks.closing = ['}'])

include hopening hclosing

theorem body?_opening (depth : Nat) (text : List Char) :
    marks.body? depth ('$' :: '{' :: text) =
      (marks.body? (depth + 1) text).map fun (body, beyond) => ('$' :: '{' :: body, beyond) := by
  obtain ⟨opening, closing, separator, lenient, properties⟩ := marks
  obtain rfl : opening = ['$', '{'] := hopening
  obtain rfl : closing = ['}'] := hclosing
  rw [body?]
  rfl

theorem body?_closing (depth : Nat) (text : List Char) :
    marks.body? (depth + 1) ('}' :: text) =
      (marks.body? depth text).map fun (body, beyond) => ('}' :: body, beyond) := by
  obtain ⟨opening, closing, separator, lenient, properties⟩ := marks
  obtain rfl : closing = ['}'] := hclosing
  rw [body?]
  rfl

/-- **Behind a balanced text, a closing mark closes what was opened before it.** -/
theorem body?_of_balanced {depth : Nat} {text : List Char} (h : balancedFrom depth text = true)
    (behind : List Char) : marks.body? depth (text ++ '}' :: behind) = some (text, behind) := by
  fun_induction balancedFrom depth text with
  | case1 depth rest ih =>
    rw [List.cons_append, List.cons_append, body?_opening hopening hclosing, ih h]
    rfl
  | case2 => cases h
  | case3 depth rest ih =>
    rw [List.cons_append, body?_closing hopening hclosing, ih h]
    rfl
  | case4 depth c rest hnotOpening hzero hsucc ih =>
    have hc : c ≠ '}' := by
      rintro rfl
      cases depth with
      | zero => exact hzero rfl rfl
      | succ depth => exact hsucc depth rfl rfl
    have hclose : marks.closing.isPrefixOf? (c :: (rest ++ '}' :: behind)) = none := by
      rw [hclosing, Text.isPrefixOf?_cons, if_neg (by simpa using hc.symm)]
    have hopen : marks.opening.isPrefixOf? (c :: (rest ++ '}' :: behind)) = none := by
      rw [hopening]
      refine Template.isPrefixOf?_literal ?_ (by decide) behind
      rintro ⟨more, hmore⟩
      obtain ⟨rfl, rfl⟩ := List.cons.inj hmore
      exact hnotOpening more rfl rfl
    rw [List.cons_append, body?_of_plain hclose hopen, ih h]
    rfl
  | case5 depth =>
    obtain rfl : depth = 0 := eq_of_beq h
    exact Template.body?_key hopening hclosing (by decide) List.not_mem_nil behind

end Usual

/-! ## Literal text in front -/

section Behind

variable (hopening : marks.opening = ['$', '{']) {literal : List Char}
  (hliteral : ¬ ['$', '{'] <:+: literal)

include hopening hliteral

/-- No placeholder is met in literal text, nor across its end if a colon follows. -/
theorem first?_behind (text : List Char) :
    marks.first? (literal ++ ':' :: text) =
      (marks.first? text).map fun (before, body, rest) => (literal ++ ':' :: before, body, rest) := by
  have hcut : Text.cutAt marks.opening (literal ++ ':' :: text) =
      (Text.cutAt marks.opening text).map
        fun (before, opened) => (literal ++ ':' :: before, opened) := by
    rw [hopening]
    induction literal with
    | nil => rfl
    | cons c literal ih =>
      rw [List.cons_append, Text.cutAt,
        Template.isPrefixOf?_literal (fun hprefix => hliteral hprefix.isInfix) (by decide),
        ih fun hinfix => hliteral (List.infix_cons hinfix), Option.map_map]
      rfl
  unfold first?
  rw [hcut]
  rcases Text.cutAt marks.opening text with _ | ⟨before, opened⟩
  · rfl
  · rw [Option.map_some, Option.bind_some, Option.bind_some, Option.map_map]
    rfl

/-- **Literal text in front is in front of the expansion.** -/
theorem scan_behind (nested : List (List Char) → List Char → Expansion) (stack : List (List Char))
    (text : List Char) :
    marks.scan whole nested stack (literal ++ ':' :: text) =
      (marks.scan whole nested stack text).map fun result => literal ++ ':' :: result := by
  have hne : marks.opening ≠ [] := hopening ▸ List.cons_ne_nil _ _
  have hbehind := first?_behind hopening hliteral text
  rcases hfirst : marks.first? text with _ | ⟨before, body, rest⟩
  · rw [hfirst] at hbehind
    rw [scan_of_none hfirst, scan_of_none hbehind]
    rfl
  · rw [hfirst] at hbehind
    rw [scan_of_first? hne hfirst, scan_of_first? hne hbehind]
    rcases marks.substitute whole nested stack body with stop | inserted
    · rfl
    rcases marks.scan whole nested stack rest with stop | remainder
    · rfl
    · simp [bind, Except.bind, Except.map]

end Behind

/-! ## The text as a whole -/

end Marks

/-- The refusal to expand a text, as one to expand the text that it is part of. -/
def Stop.about (whole : String) : Stop → Stop
  | .failure (.evaluation _ fault) => .failure (.evaluation whole fault)
  | stop => stop

namespace Marks

variable {marks : Marks} {whole part : String}

section About

variable {nested nested' : List (List Char) → List Char → Expansion}
  (hnested : ∀ stack text, nested' stack text = (nested stack text).mapError (Stop.about whole))

include hnested

theorem substitute_about (stack : List (List Char)) (body : List Char) :
    marks.substitute whole nested' stack body =
      (marks.substitute part nested stack body).mapError (Stop.about whole) := by
  have hbody := hnested stack body
  rcases hkey : nested stack body with stop | key
  · rw [hkey] at hbody
    rw [substitute_of_stop hkey, substitute_of_stop hbody]
    rfl
  · rw [hkey] at hbody
    rw [substitute_of_key hkey, substitute_of_key hbody]
    split
    · rfl
    · split
      · exact hnested _ _
      · split
        · rfl
        · rfl

theorem scan_about (stack : List (List Char)) (text : List Char) :
    marks.scan whole nested' stack text =
      (marks.scan part nested stack text).mapError (Stop.about whole) := by
  rw [scan, scan]
  split
  · rfl
  · split
    · rfl
    · next body rest _ =>
      rw [substitute_about hnested stack body]
      rcases marks.substitute part nested stack body with stop | inserted
      · rfl
      · -- both go on with what follows the placeholder, or stop because nothing got shorter
        dsimp only [bind, Except.bind, Except.mapError]
        split
        · rw [scan_about stack rest]
          rcases marks.scan part nested stack rest with stop | remainder
          · rfl
          · rfl
        · rfl
termination_by text.length

omit hnested in
/-- **Expanding a text as part of another one blames the other one, and makes no other difference.** -/
theorem expand_about (marks : Marks) (whole part : String) (depth : Nat) (stack : List (List Char))
    (text : List Char) :
    marks.expand whole depth stack text =
      (marks.expand part depth stack text).mapError (Stop.about whole) := by
  induction depth generalizing stack text with
  | zero => rfl
  | succ depth ih => exact scan_about ih stack text

end About

/-! ## The value of a key with a default -/

/-- A text is cut at its first colon. -/
theorem cutAt_colon {key : List Char} (h : ':' ∉ key) (fallback : List Char) :
    Text.cutAt [':'] (key ++ ':' :: fallback) = some (key, fallback) := by
  induction key with
  | nil => rfl
  | cons c key ih =>
    rw [List.mem_cons, not_or] at h
    rw [List.cons_append, Text.cutAt, Text.isPrefixOf?_cons, if_neg (by simpa using h.1), ih h.2]
    rfl

/-- **A key with a default has the value of the key alone if it has one**, where no name of a property
has a colon in it. -/
theorem value?_of_key (hseparator : marks.separator = some [':'])
    (hnames : ∀ name, (marks.properties.find? name).isSome → ':' ∉ name.toList)
    {key value : String} (hvalue : marks.properties.find? key = some value) (fallback : List Char) :
    marks.value? (key.toList ++ ':' :: fallback) = some value.toList := by
  have hkey : ':' ∉ key.toList := hnames key (hvalue ▸ rfl)
  have hwhole : marks.properties.find? (String.ofList (key.toList ++ ':' :: fallback)) = none := by
    rw [← Option.not_isSome_iff_eq_none]
    intro hsome
    refine hnames _ hsome ?_
    rw [String.toList_ofList]
    exact List.mem_append_right _ List.mem_cons_self
  unfold value?
  rw [hwhole, hseparator]
  dsimp only [Option.bind_some]
  rw [cutAt_colon hkey]
  dsimp only
  rw [String.ofList_toList, hvalue]

section Default

variable (hopening : marks.opening = ['$', '{']) {key fallback : String} (hkey : IsKey key)

include hopening hkey

/-- What is met first in a placeholder with a default is the placeholder as a whole. -/
theorem first?_default (hclosing : marks.closing = ['}']) (hbalanced : IsBalanced fallback) :
    marks.first? ('$' :: '{' :: (key.toList ++ ':' :: fallback.toList ++ ['}'])) =
      some ([], key.toList ++ ':' :: fallback.toList, []) := by
  have hbody : balancedFrom 0 (key.toList ++ ':' :: fallback.toList) = true := by
    rw [balancedFrom_behind hkey.1 hkey.2]
    exact hbalanced
  refine first?_eq_some_iff.2 ⟨key.toList ++ ':' :: fallback.toList ++ ['}'], ?_,
    body?_of_balanced hopening hclosing hbody []⟩
  rw [hopening]
  rfl

/-- **A placeholder with a default comes to the value of its key if the default has an expansion.** The body
is expanded, and its default with it, before the key is looked up. -/
theorem substitute_default (hseparator : marks.separator = some [':'])
    (hnames : ∀ name, (marks.properties.find? name).isSome → ':' ∉ name.toList) {value : String}
    (hvalue : marks.properties.find? key = some value) (hliteral : IsLiteral value) (depth : Nat) :
    marks.substitute whole (marks.expand whole depth) [] (key.toList ++ ':' :: fallback.toList) =
      (marks.expand whole depth [] fallback.toList).map fun _ => value.toList := by
  cases depth with
  | zero => exact substitute_of_stop rfl
  | succ depth =>
    have hbody : marks.expand whole (depth + 1) [] (key.toList ++ ':' :: fallback.toList) =
        (marks.expand whole (depth + 1) [] fallback.toList).map
          fun result => key.toList ++ ':' :: result := scan_behind hopening hkey.1 _ _ _
    rcases hfallback : marks.expand whole (depth + 1) [] fallback.toList with stop | result
    · rw [hfallback] at hbody
      exact substitute_of_stop hbody
    · -- the key is the body with its default expanded, and is cut at the first colon
      rw [hfallback] at hbody
      rw [substitute_of_value hbody List.not_mem_nil (value?_of_key hseparator hnames hvalue result)]
      exact expand_of_none depth (Template.first?_literal hopening hliteral)

end Default

end Marks

namespace Settings

variable {settings : Settings}

/-- No two depths give different results or failures. -/
theorem expand_agree {text : String} {depth further : Nat} (h : Settled (settings.expand depth text))
    (h' : Settled (settings.expand further text)) :
    settings.expand depth text = settings.expand further text := by
  have hsettles : ∀ depth further, depth ≤ further →
      Settles (settings.expand depth text) (settings.expand further text) := fun _ _ hle =>
    (settings.marks.expand_settled text hle [] text.toList).map _
  exact Settled.agree hsettles h h'

/-- **A default matters where the key has a value only in that it has to be expanded.** Placeholders are
written as usual, and no name of a property has a colon in it. Then a key that has literal text as its
value, with a default in which the marks of placeholders belong together, comes to what the default
comes to at one depth less: to the value of the key if the default has an expansion, whatever that is; and
if the default is refused, it is refused for the same reason. -/
theorem expand_default (hopening : settings.opening = "$\x7b") (hclosing : settings.closing = "\x7d")
    (hseparator : settings.separator = ":")
    (hnames : ∀ name, (settings.properties.find? name).isSome → ':' ∉ name.toList)
    {key value fallback : String} (hkey : IsKey key) (hvalue : settings.properties.find? key = some value)
    (hliteral : IsLiteral value) (hbalanced : IsBalanced fallback) (depth : Nat) :
    settings.expand (depth + 1) ("$\x7b" ++ key ++ ":" ++ fallback ++ "\x7d") =
      ((settings.expand depth fallback).map fun _ => value).mapError
        (Stop.about ("$\x7b" ++ key ++ ":" ++ fallback ++ "\x7d")) := by
  have hopening' : settings.marks.opening = ['$', '{'] := by rw [marks, hopening]; rfl
  have hclosing' : settings.marks.closing = ['}'] := by rw [marks, hclosing]; rfl
  have hseparator' : settings.marks.separator = some [':'] := by rw [marks, hseparator]; rfl
  have hne : settings.marks.opening ≠ [] := hopening' ▸ List.cons_ne_nil _ _
  generalize hwhole : "$\x7b" ++ key ++ ":" ++ fallback ++ "\x7d" = whole
  have htext : whole.toList = '$' :: '{' :: (key.toList ++ ':' :: fallback.toList ++ ['}']) := by
    rw [← hwhole]
    simp
  -- nothing is left to be expanded behind the placeholder
  have hliteral' : IsLiteral "" := by decide
  have hnothing : settings.marks.first? [] = none := Template.first?_literal hopening' hliteral'
  unfold expand
  show Except.map _ (settings.marks.scan whole (settings.marks.expand whole depth) [] whole.toList) = _
  rw [htext, Marks.scan_of_first? hne (Marks.first?_default hopening' hkey hclosing' hbalanced),
    Marks.substitute_default hopening' hkey hseparator' hnames hvalue hliteral,
    Marks.expand_about settings.marks whole fallback, Marks.scan_of_none hnothing]
  rcases settings.marks.expand fallback depth [] fallback.toList with stop | result
  · rfl
  · show Except.ok (String.ofList (value.toList ++ [])) = _
    rw [List.append_nil, String.ofList_toList]
    rfl

end Settings

/-- One property, with literal text as its value. -/
def keyed : Settings where
  properties := .ofList [("k", "v")]

/-- No name of its properties has a colon in it. -/
theorem keyed_names (name : String) (h : (keyed.properties.find? name).isSome) :
    ':' ∉ name.toList := by
  have hname : name ∈ ["k"] := PropertyTable.mem_names h
  rw [List.mem_singleton.1 hname]
  decide

/-- The value of `k` stands for a placeholder whose default refers to `k` in turn, and one with an unknown
default is refused. -/
theorem expand_default_keyed :
    (∀ name, (keyed.properties.find? name).isSome → ':' ∉ name.toList) ∧
      IsKey "k" ∧ keyed.properties.find? "k" = some "v" ∧ IsLiteral "v" ∧
      IsBalanced "$\x7bk:$\x7bk\x7d$\x7d!" ∧ IsBalanced "$\x7bx\x7d" ∧
      keyed.expand 4 "$\x7bk:$\x7bk:$\x7bk\x7d$\x7d!\x7d" = .ok "v" ∧
      keyed.expand 4 "$\x7bk:$\x7bx\x7d\x7d" =
        .error (.failure (.evaluation "$\x7bk:$\x7bx\x7d\x7d" (.unresolvable "x"))) := by
  have hnested : keyed.expand 4 ("$\x7b" ++ "k" ++ ":" ++ "$\x7bk:$\x7bk\x7d$\x7d!" ++ "\x7d") = _ :=
    Settings.expand_default rfl rfl rfl keyed_names (by decide) rfl (by decide) (by decide) 3
  have hunknown : keyed.expand 4 ("$\x7b" ++ "k" ++ ":" ++ "$\x7bx\x7d" ++ "\x7d") = _ :=
    Settings.expand_default rfl rfl rfl keyed_names (by decide) rfl (by decide) (by decide) 3
  refine ⟨keyed_names, by decide, rfl, by decide, by decide, by decide, hnested.trans ?_,
    hunknown.trans ?_⟩
  · have h : keyed.expand 3 "$\x7bk:$\x7bk\x7d$\x7d!" = .ok "v!" := by cbv
    rw [h]
    rfl
  · have h : keyed.expand 3 "$\x7bx\x7d" =
        .error (.failure (.evaluation "$\x7bx\x7d" (.unresolvable "x"))) := by cbv
    rw [h]
    rfl

/-- **The value of a key does not stand for a placeholder with an unknown default.** -/
theorem not_expand_default_unknown :
    keyed.lenient = false ∧ (∀ name, (keyed.properties.find? name).isSome → ':' ∉ name.toList) ∧
      IsKey "k" ∧ keyed.properties.find? "k" = some "v" ∧ IsLiteral "v" ∧ IsBalanced "$\x7bx\x7d" ∧
      ∀ depth, keyed.expand depth "$\x7bk:$\x7bx\x7d\x7d" ≠ .ok "v" := by
  refine ⟨rfl, keyed_names, by decide, rfl, by decide, by decide, fun depth hok => ?_⟩
  have hrefused : keyed.expand 3 "$\x7bk:$\x7bx\x7d\x7d" =
      .error (.failure (.evaluation "$\x7bk:$\x7bx\x7d\x7d" (.unresolvable "x"))) := by cbv
  have hagree : keyed.expand depth "$\x7bk:$\x7bx\x7d\x7d" = keyed.expand 3 "$\x7bk:$\x7bx\x7d\x7d" :=
    Settings.expand_agree (hok ▸ Settled.settled_ok "v") (hrefused ▸ Settled.settled_failure _)
  rw [hok, hrefused] at hagree
  cases hagree

end Injector
