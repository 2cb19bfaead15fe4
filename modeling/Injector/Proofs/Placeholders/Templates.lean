import Injector.Proofs.Placeholders.Termination

/-!
# Templates

A template is literal text with placeholders between. If all values of a property table are templates,
a key refers to the keys in its value, and the expansion of a template is plain to say: every
placeholder is replaced by the expansion of its value (`Template.Expands`). It exists as long as no key
that is reached refers back to itself.

Going over a text, matching marks and keeping a stack of keys comes to the same
(`Settings.expand_template`): a template without cycles is replaced by its expansion, and one that
leads into a cycle is refused as circular. Inserted text is not looked at again, so nothing comes of
marks that it would complete together with what stands around it.

* `Template.first?_placeholder` says what going over a template meets first.
* `Marks.ComesTo` is the outcome at every depth that is enough. What a placeholder comes to whose key
  needs no expansion is `Marks.comesTo_circular`, `Marks.comesTo_of_stop` and `Marks.comesTo_of_value`.
* `Template.expand_fits` follows the text, with the keys that are not on the stack as the measure.
* `Template.Expands.acyclic` is the reason why a cycle cannot be expanded.
-/

namespace Injector

open Relation

/-! ## Templates -/

/-- No placeholder is opened in the text. -/
def IsLiteral (text : String) : Prop :=
  ¬ ['$', '{'] <:+: text.toList

/-- No placeholder is opened or closed in the text. -/
def IsKey (text : String) : Prop :=
  IsLiteral text ∧ '}' ∉ text.toList

instance (text : String) : Decidable (IsLiteral text) :=
  inferInstanceAs (Decidable (¬ _))

instance (text : String) : Decidable (IsKey text) :=
  inferInstanceAs (Decidable (_ ∧ _))

/-- Literal text, or literal text, a placeholder and a template behind it. The literal text in front of
a placeholder, which may be empty, is all there is between it and the one before. -/
inductive Template
  | literal (text : String) (plain : IsLiteral text)
  | placeholder (before key : String) (plain : IsLiteral before) (closed : IsKey key)
      (rest : Template)

namespace Template

/-- The template as it is written. -/
def text : Template → String
  | literal text _ => text
  | placeholder before key _ _ rest => before ++ "$\x7b" ++ key ++ "\x7d" ++ rest.text

/-- The keys of the placeholders. -/
def keys : Template → List String
  | literal _ _ => []
  | placeholder _ key _ _ rest => key :: rest.keys

/-- The template with every placeholder replaced by the full expansion of its value. -/
inductive Expands (values : String → Option Template) : Template → String → Prop
  | literal {text plain} : Expands values (literal text plain) text
  | placeholder {before key plain closed rest value inserted remainder}
      (hvalue : values key = some value) (hinserted : Expands values value inserted)
      (hremainder : Expands values rest remainder) :
      Expands values (placeholder before key plain closed rest) (before ++ inserted ++ remainder)

/-- The value of a key has a placeholder of the other key. -/
def Refers (values : String → Option Template) (key other : String) : Prop :=
  ∃ value, values key = some value ∧ other ∈ value.keys

/-- A key is among those of a template, or referred to from there. -/
def Reaches (values : String → Option Template) (template : Template) (key : String) : Prop :=
  ∃ first ∈ template.keys, ReflTransGen (Refers values) first key

/-- A key that refers back to itself is reached. -/
def LeadsIntoCycle (values : String → Option Template) (template : Template) : Prop :=
  ∃ key, template.Reaches values key ∧ TransGen (Refers values) key key

variable {values : String → Option Template}

theorem Reaches.of_rest {before key : String} {plain : IsLiteral before} {closed : IsKey key}
    {rest : Template} {other : String} (h : rest.Reaches values other) :
    (placeholder before key plain closed rest).Reaches values other := by
  obtain ⟨first, hfirst, hpath⟩ := h
  exact ⟨first, List.mem_cons_of_mem _ hfirst, hpath⟩

theorem reaches_key {before key : String} {plain : IsLiteral before} {closed : IsKey key}
    {rest : Template} : (placeholder before key plain closed rest).Reaches values key :=
  ⟨key, List.mem_cons_self, .refl⟩

/-- What the value of a placeholder reaches is reached by the template. -/
theorem Reaches.of_value {before key : String} {plain : IsLiteral before} {closed : IsKey key}
    {rest value : Template} {other : String} (hvalue : values key = some value)
    (h : value.Reaches values other) :
    (placeholder before key plain closed rest).Reaches values other := by
  obtain ⟨first, hfirst, hpath⟩ := h
  exact ⟨key, List.mem_cons_self, .head ⟨value, hvalue, hfirst⟩ hpath⟩

/-- **There is one expansion at most.** -/
theorem Expands.unique {template : Template} {result result' : String}
    (h : template.Expands values result) (h' : template.Expands values result') :
    result = result' := by
  induction h generalizing result' with
  | literal =>
    cases h'
    rfl
  | placeholder hvalue _ _ ihinserted ihremainder =>
    cases h' with
    | placeholder hvalue' hinserted' hremainder' =>
      cases hvalue.symm.trans hvalue'
      rw [ihinserted hinserted', ihremainder hremainder']

/-- From the keys of a template that has an expansion, references do not go on for ever. -/
theorem Expands.acc {template : Template} {result : String} (h : template.Expands values result) :
    ∀ key ∈ template.keys, Acc (Function.swap (Refers values)) key := by
  induction h with
  | literal => exact fun key hkey => absurd hkey List.not_mem_nil
  | placeholder hvalue _ _ ihinserted ihremainder =>
    intro key hkey
    rcases List.mem_cons.1 hkey with rfl | hkey
    · refine Acc.intro _ fun other ⟨value', hvalue', hother⟩ => ?_
      cases hvalue.symm.trans hvalue'
      exact ihinserted other hother
    · exact ihremainder key hkey

/-- **A template that has an expansion leads into no cycle.** -/
theorem Expands.acyclic {template : Template} {result : String}
    (h : template.Expands values result) : ¬ template.LeadsIntoCycle values := by
  rintro ⟨key, ⟨first, hfirst, hpath⟩, hcycle⟩
  have hreached : ∀ other, ReflTransGen (Refers values) first other →
      Acc (Function.swap (Refers values)) other := by
    intro other hpath
    induction hpath with
    | refl => exact h.acc first hfirst
    | tail _ hstep ih => exact ih.inv hstep
  have hacc : Acc (TransGen (Function.swap (Refers values))) key := (hreached key hpath).transGen
  replace hcycle : TransGen (Function.swap (Refers values)) key key := transGen_swap.2 hcycle
  clear hpath
  induction hacc with
  | intro key _ ih => exact ih key hcycle hcycle

/-! ## Meeting the placeholders of a template -/

/-- A placeholder is not opened across the end of text that begins with none. -/
theorem isPrefixOf?_literal {c d : Char} {text : List Char} (h : ¬ ['$', '{'] <+: c :: text)
    (hd : d ≠ '{') (behind : List Char) :
    ['$', '{'].isPrefixOf? (c :: (text ++ d :: behind)) = none := by
  rw [Text.isPrefixOf?_cons]
  split
  · next hc =>
    cases text with
    | nil => rw [List.nil_append, Text.isPrefixOf?_cons, if_neg (by simpa using hd.symm)]
    | cons e text =>
      have he : '{' ≠ e := by
        rintro rfl
        exact h ⟨text, by rw [eq_of_beq hc]; rfl⟩
      rw [List.cons_append, Text.isPrefixOf?_cons, if_neg (by simpa using he)]
  · rfl

/-- The first place where a placeholder is opened is behind text in which none is. -/
theorem cutAt_literal {text : List Char} (h : ¬ ['$', '{'] <:+: text) (behind : List Char) :
    Text.cutAt ['$', '{'] (text ++ '$' :: '{' :: behind) = some (text, behind) := by
  induction text with
  | nil => rfl
  | cons c text ih =>
    rw [List.cons_append, Text.cutAt,
      isPrefixOf?_literal (fun hprefix => h hprefix.isInfix) (by decide),
      ih fun hinfix => h (List.infix_cons hinfix)]
    rfl

variable {marks : Marks} {whole : String} (hopening : marks.opening = ['$', '{'])

include hopening in
/-- No placeholder is met in literal text. -/
theorem first?_literal {text : String} (h : IsLiteral text) : marks.first? text.toList = none := by
  rcases hcut : Text.cutAt ['$', '{'] text.toList with _ | ⟨before, behind⟩
  · rw [Marks.first?, hopening, hcut]
    rfl
  · exact absurd ⟨before, behind, Text.joined_of_cutAt hcut⟩ h

variable (hclosing : marks.closing = ['}'])

include hopening hclosing

/-- A placeholder ends at the first place where one is closed if none is opened before. -/
theorem body?_key {key : List Char} (h : ¬ ['$', '{'] <:+: key) (hclosed : '}' ∉ key)
    (behind : List Char) : marks.body? 0 (key ++ '}' :: behind) = some (key, behind) := by
  induction key with
  | nil =>
    rw [List.nil_append, Marks.body?]
    split
    · next after hafter =>
      rw [hclosing] at hafter
      rw [← Option.some.inj hafter]
    · next hnone =>
      rw [hclosing] at hnone
      cases hnone
  | cons c key ih =>
    rw [List.mem_cons, not_or] at hclosed
    have hnotClosing : marks.closing.isPrefixOf? (c :: (key ++ '}' :: behind)) = none := by
      rw [hclosing, Text.isPrefixOf?_cons, if_neg (by simpa using hclosed.1)]
    have hnotOpening : marks.opening.isPrefixOf? (c :: (key ++ '}' :: behind)) = none := by
      rw [hopening]
      exact isPrefixOf?_literal (fun hprefix => h hprefix.isInfix) (by decide) behind
    rw [List.cons_append, Marks.body?_of_plain hnotClosing hnotOpening,
      ih (fun hinfix => h (List.infix_cons hinfix)) hclosed.2]
    rfl

/-- **The first placeholder of a template is the first that is met.** -/
theorem first?_placeholder {before key : String} {plain : IsLiteral before} {closed : IsKey key}
    {rest : Template} :
    marks.first? (placeholder before key plain closed rest).text.toList =
      some (before.toList, key.toList, rest.text.toList) := by
  refine Marks.first?_eq_some_iff.2 ⟨key.toList ++ '}' :: rest.text.toList, ?_,
    body?_key hopening hclosing closed.1 closed.2 _⟩
  have htext : (placeholder before key plain closed rest).text.toList =
      before.toList ++ '$' :: '{' :: (key.toList ++ '}' :: rest.text.toList) := by
    simp [text]
  rw [htext, hopening]
  exact cutAt_literal plain _

end Template

/-! ## Depths that are enough -/

namespace Marks

variable {marks : Marks} {whole : String} {stack : List (List Char)}
  {text before key rest value : List Char}

/-- At every depth that is enough, this comes of expanding a text. -/
def ComesTo (marks : Marks) (whole : String) (stack : List (List Char)) (text : List Char)
    (outcome : Expansion) : Prop :=
  ∃ depth, ∀ further ≥ depth, marks.expand whole further stack text = outcome

theorem comesTo_of_none (h : marks.first? text = none) : marks.ComesTo whole stack text (.ok text) := by
  refine ⟨1, fun further hfurther => ?_⟩
  obtain ⟨depth, rfl⟩ := Nat.exists_eq_add_of_le' hfurther
  exact expand_of_none depth h

section Placeholder

variable (hopening : marks.opening ≠ []) (hfirst : marks.first? text = some (before, key, rest))
  (hplain : marks.first? key = none)

include hopening hfirst

/-- The rest of a text is expanded at the same depth as the text. -/
theorem expand_of_first? (depth : Nat) :
    marks.expand whole (depth + 1) stack text =
      marks.substitute whole (marks.expand whole depth) stack key >>= fun inserted =>
        marks.expand whole (depth + 1) stack rest >>= fun remainder =>
          .ok (before ++ inserted ++ remainder) :=
  scan_of_first? hopening hfirst

include hplain

/-- A key that is on the stack is refused. -/
theorem comesTo_circular (hmem : key ∈ stack) :
    marks.ComesTo whole stack text (.error (refusal whole (.circular (String.ofList key)))) := by
  refine ⟨2, fun further hfurther => ?_⟩
  obtain ⟨depth, rfl⟩ := Nat.exists_eq_add_of_le' hfurther
  rw [expand_of_first? hopening hfirst, substitute_of_key (expand_of_none depth hplain), if_pos hmem]
  rfl

variable (hnew : key ∉ stack) (hvalue : marks.value? key = some value)

include hnew hvalue

/-- A text comes to what stops the expansion of a value in it. -/
theorem comesTo_of_stop {stop : Stop} (h : marks.ComesTo whole (key :: stack) value (.error stop)) :
    marks.ComesTo whole stack text (.error stop) := by
  obtain ⟨enough, henough⟩ := h
  refine ⟨enough + 2, fun further hfurther => ?_⟩
  obtain ⟨depth, rfl⟩ := Nat.exists_eq_add_of_le' hfurther
  rw [← Nat.add_assoc, expand_of_first? hopening hfirst,
    substitute_of_value (expand_of_none _ hplain) hnew hvalue, henough _ (by omega)]
  rfl

/-- An expanded value stands before what the rest of the text comes to. -/
theorem comesTo_of_value {inserted : List Char} {remainder : Expansion}
    (h : marks.ComesTo whole (key :: stack) value (.ok inserted))
    (hrest : marks.ComesTo whole stack rest remainder) :
    marks.ComesTo whole stack text
      (remainder >>= fun remainder => .ok (before ++ inserted ++ remainder)) := by
  obtain ⟨enough, henough⟩ := h
  obtain ⟨enoughRest, henoughRest⟩ := hrest
  refine ⟨enough + enoughRest + 2, fun further hfurther => ?_⟩
  obtain ⟨depth, rfl⟩ := Nat.exists_eq_add_of_le' hfurther
  rw [← Nat.add_assoc, expand_of_first? hopening hfirst,
    substitute_of_value (expand_of_none _ hplain) hnew hvalue, henough _ (by omega),
    henoughRest _ (by omega)]
  rfl

end Placeholder

end Marks

namespace Template

variable {values : String → Option Template} {marks : Marks} {whole : String}

/-! ## Expanding a template -/

/-- What comes of a template: its expansion, or that it leads into a cycle. -/
def Fits (values : String → Option Template) (whole : String) (template : Template) :
    Marks.Expansion → Prop
  | .ok result => template.Expands values (String.ofList result)
  | .error stop => ∃ key, template.Reaches values key ∧ TransGen (Refers values) key key ∧
      stop = Marks.refusal whole (.circular key)

/-- **Expanding a template comes to its expansion, or to the refusal of a cycle that it leads into.**
`free` are the keys that may still be expanded, and those on the stack lead to the template. -/
theorem expand_fits (hopening : marks.opening = ['$', '{']) (hclosing : marks.closing = ['}'])
    (hvalues : ∀ key, marks.properties.find? key = (values key).map text)
    (free : Finset String) (template : Template) (stack : List (List Char))
    (hfree : ∀ key, (values key).isSome → key.toList ∉ stack → key ∈ free)
    (hknown : ∀ key, template.Reaches values key → (values key).isSome)
    (hstack : ∀ key, key.toList ∈ stack → ∀ other ∈ template.keys,
      TransGen (Refers values) key other) :
    ∃ outcome, template.Fits values whole outcome ∧
      marks.ComesTo whole stack template.text.toList outcome := by
  -- over the keys that are free, as a value is expanded with its key on the stack, and within that
  -- along the template
  induction free using Finset.strongInduction generalizing template stack with
  | H free ih =>
  induction template with
  | literal text plain =>
    refine ⟨.ok text.toList, ?_, Marks.comesTo_of_none (first?_literal hopening plain)⟩
    show Expands values _ (String.ofList text.toList)
    rw [String.ofList_toList]
    exact .literal
  | placeholder before key plain closed rest ihrest =>
    have hne : marks.opening ≠ [] := hopening ▸ List.cons_ne_nil _ _
    have hfirst : marks.first? (placeholder before key plain closed rest).text.toList =
        some (before.toList, key.toList, rest.text.toList) := first?_placeholder hopening hclosing
    have hplain : marks.first? key.toList = none := first?_literal hopening closed.1
    by_cases hmem : key.toList ∈ stack
    · have hcircular : marks.ComesTo whole stack
          (placeholder before key plain closed rest).text.toList
          (.error (Marks.refusal whole (.circular (String.ofList key.toList)))) :=
        Marks.comesTo_circular hne hfirst hplain hmem
      rw [String.ofList_toList] at hcircular
      exact ⟨.error (Marks.refusal whole (.circular key)),
        ⟨key, reaches_key, hstack key hmem key List.mem_cons_self, rfl⟩, hcircular⟩
    obtain ⟨value, hvalue⟩ := Option.isSome_iff_exists.1 (hknown key reaches_key)
    have hfound : marks.value? key.toList = some value.text.toList := by
      rw [Marks.value?, String.ofList_toList, hvalues, hvalue]
      rfl
    have hkeyFree : key ∈ free := hfree key (hvalue ▸ rfl) hmem
    obtain ⟨inserted, hinserted, hcomes⟩ :=
      ih (free.erase key) (Finset.erase_ssubset hkeyFree) value (key.toList :: stack)
        (fun other hother hnotMem => by
          rw [List.mem_cons, not_or] at hnotMem
          exact Finset.mem_erase.2
            ⟨fun heq => hnotMem.1 (heq ▸ rfl), hfree other hother hnotMem.2⟩)
        (fun other hother => hknown other (hother.of_value hvalue))
        (fun other hother later hlater => by
          have hrefers : Refers values key later := ⟨value, hvalue, hlater⟩
          rcases List.mem_cons.1 hother with heq | hother
          · rw [String.toList_inj.1 heq]
            exact .single hrefers
          · exact (hstack other hother key List.mem_cons_self).tail hrefers)
    rcases inserted with stop | inserted
    · obtain ⟨other, hother, hcycle, rfl⟩ := hinserted
      exact ⟨.error (Marks.refusal whole (.circular other)),
        ⟨other, hother.of_value hvalue, hcycle, rfl⟩,
        Marks.comesTo_of_stop hne hfirst hplain hmem hfound hcomes⟩
    obtain ⟨remainder, hremainder, hcomesRest⟩ := ihrest
      (fun other hother => hknown other hother.of_rest)
      (fun other hother later hlater => hstack other hother later (List.mem_cons_of_mem _ hlater))
    refine ⟨_, ?_, Marks.comesTo_of_value hne hfirst hplain hmem hfound hcomes hcomesRest⟩
    rcases remainder with stop | remainder
    · obtain ⟨other, hother, hcycle, rfl⟩ := hremainder
      exact ⟨other, hother.of_rest, hcycle, rfl⟩
    · have hresult : Expands values (placeholder before key plain closed rest)
          (before ++ String.ofList inserted ++ String.ofList remainder) :=
        .placeholder hvalue hinserted hremainder
      show Expands values _ (String.ofList (before.toList ++ inserted ++ remainder))
      rw [String.ofList_append, String.ofList_append, String.ofList_toList]
      exact hresult

end Template

namespace Settings

variable {settings : Settings} {values : String → Option Template}

/-- Placeholders are written as usual, and the properties are these templates. -/
structure Templated (settings : Settings) (values : String → Option Template) : Prop where
  opening : settings.opening = "$\x7b"
  closing : settings.closing = "\x7d"
  properties : ∀ key, settings.properties.find? key = (values key).map Template.text

/-- **A template all of whose keys have values is replaced by its expansion if it leads into no cycle,
and is refused as circular if it leads into one.** -/
theorem expand_template (h : settings.Templated values) (template : Template)
    (hknown : ∀ key, template.Reaches values key → (values key).isSome) :
    (¬ template.LeadsIntoCycle values → ∃ result, template.Expands values result ∧
      ∃ depth, ∀ further ≥ depth, settings.expand further template.text = .ok result) ∧
    (template.LeadsIntoCycle values → ∃ key, template.Reaches values key ∧
      TransGen (Template.Refers values) key key ∧ ∃ depth, ∀ further ≥ depth,
        settings.expand further template.text =
          .error (.failure (.evaluation template.text (.circular key)))) := by
  have hopening : settings.marks.opening = ['$', '{'] := by rw [marks, h.opening]; rfl
  have hclosing : settings.marks.closing = ['}'] := by rw [marks, h.closing]; rfl
  have hexpands : ∃ outcome, template.Fits values template.text outcome ∧
      settings.marks.ComesTo template.text [] template.text.toList outcome :=
    Template.expand_fits hopening hclosing h.properties
      (settings.properties.entries.map Prod.fst).toFinset template []
      (fun key hkey _ => List.mem_toFinset.2
        (PropertyTable.mem_names (by rw [h.properties, Option.isSome_map, hkey])))
      hknown (fun key hkey => absurd hkey List.not_mem_nil)
  obtain ⟨outcome, hfits, depth, hdepth⟩ := hexpands
  have hexpand : ∀ further ≥ depth,
      settings.expand further template.text = outcome.map String.ofList := by
    intro further hfurther
    rw [expand, hdepth further hfurther]
  rcases outcome with stop | result
  · obtain ⟨key, hkey, hcycle, rfl⟩ := hfits
    exact ⟨fun hacyclic => absurd ⟨key, hkey, hcycle⟩ hacyclic,
      fun _ => ⟨key, hkey, hcycle, depth, hexpand⟩⟩
  · exact ⟨fun _ => ⟨_, hfits, depth, hexpand⟩, fun hcycle => absurd hcycle hfits.acyclic⟩

end Settings

/-- `a` refers to `b`, whose value ends where a placeholder would begin, and `c` to `a` and to itself. -/
def chainedValues (key : String) : Option Template :=
  if key = "c" then
    some (.placeholder "" "a" (by decide) (by decide)
      (.placeholder "" "c" (by decide) (by decide) (.literal "" (by decide))))
  else if key = "b" then some (.literal "$" (by decide))
  else if key = "a" then
    some (.placeholder "x" "b" (by decide) (by decide) (.literal "\x7bc\x7d" (by decide)))
  else none

/-- The settings with these templates. -/
def chained : Settings where
  properties := .ofList [("a", "x$\x7bb\x7d\x7bc\x7d"), ("b", "$"), ("c", "$\x7ba\x7d$\x7bc\x7d")]

theorem chained_templated : chained.Templated chainedValues where
  opening := rfl
  closing := rfl
  properties key := by
    simp only [chained, PropertyTable.ofList, List.foldl_cons, List.foldl_nil,
      PropertyTable.find?_insert, chainedValues]
    split
    · rfl
    · split
      · rfl
      · split <;> rfl

/-- Whatever is referred to has a value. -/
theorem chained_known {template : Template} (h : ∀ key ∈ template.keys, (chainedValues key).isSome)
    {key : String} (hkey : template.Reaches chainedValues key) : (chainedValues key).isSome := by
  obtain ⟨first, hfirst, hpath⟩ := hkey
  induction hpath with
  | refl => exact h first hfirst
  | @tail middle other _ hrefers ih =>
    obtain ⟨value, hvalue, hmem⟩ := hrefers
    unfold chainedValues at hvalue
    split at hvalue
    · cases hvalue
      revert other
      decide
    · split at hvalue
      · cases hvalue
        cases hmem
      · split at hvalue
        · cases hvalue
          revert other
          decide
        · cases hvalue

/-- The value of `b` and what follows it are no placeholder, and `c` is circular. -/
theorem expand_template_chained :
    chained.Templated chainedValues ∧
      (∃ depth, ∀ further ≥ depth,
        chained.expand further "$\x7ba\x7d$\x7bb\x7d!" = .ok "x$\x7bc\x7d$!") ∧
      ∃ key depth, ∀ further ≥ depth, chained.expand further "$\x7ba\x7d$\x7bc\x7d" =
        .error (.failure (.evaluation "$\x7ba\x7d$\x7bc\x7d" (.circular key))) := by
  refine ⟨chained_templated, ?_, ?_⟩
  · let template : Template := .placeholder "" "a" (by decide) (by decide)
      (.placeholder "" "b" (by decide) (by decide) (.literal "!" (by decide)))
    have hexpands : template.Expands chainedValues ("" ++ ("x" ++ "$" ++ "\x7bc\x7d") ++
        ("" ++ "$" ++ "!")) :=
      .placeholder rfl (.placeholder rfl .literal .literal) (.placeholder rfl .literal .literal)
    obtain ⟨result, hresult, hexpand⟩ := (Settings.expand_template chained_templated template
      fun key => chained_known (by decide)).1 hexpands.acyclic
    rw [hresult.unique hexpands] at hexpand
    exact hexpand
  · let template : Template := .placeholder "" "a" (by decide) (by decide)
      (.placeholder "" "c" (by decide) (by decide) (.literal "" (by decide)))
    have hc : template.Reaches chainedValues "c" := Template.reaches_key.of_rest
    obtain ⟨key, -, -, hexpand⟩ := (Settings.expand_template chained_templated template
      fun key => chained_known (by decide)).2 ⟨"c", hc, .single ⟨_, rfl, by decide⟩⟩
    exact ⟨key, hexpand⟩

end Injector
