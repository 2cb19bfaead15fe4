import Injector.Toml.Builtin

/-!
# Written documents read back

A document that the built-in library writes is read from its beginning, and every reader takes off exactly
what one writer has put there: the characters of a text (`quotedRest_escaped`), a text in quotes, a key, a
line (`assignmentLine?_line`), a header (`headerLine?_headerLine`) and all lines of the document
(`statements?_fields`). Carrying out the statements then gives each key its value
(`ofStatements?_written`).

So plain tables are written and read by one standard, that of what is read (`builtin_writes`,
`builtin_reads`).
-/

namespace Injector.Toml

/-! ## Tables that are the same -/

theorem Item.Same.symm {first second : Item} (h : first.Same second) : second.Same first := by
  cases h with
  | refl => exact .refl _
  | texts hperm => exact .texts hperm.symm

theorem Item.Same.trans {first second third : Item} (h : first.Same second)
    (h' : second.Same third) : first.Same third := by
  cases h with
  | refl => exact h'
  | texts hperm =>
    cases h' with
    | refl => exact .texts hperm
    | texts hperm' => exact .texts (hperm.trans hperm')

namespace Fields.Same

variable {first second third : Fields}

theorem of_lookup_eq (h : ∀ key, first.lookup key = second.lookup key) : first.Same second := by
  intro key
  rw [h key]
  cases second.lookup key with
  | none => exact .none
  | some item => exact .some (.refl item)

theorem symm (h : first.Same second) : second.Same first := by
  intro key
  have hkey := h key
  generalize first.lookup key = a, second.lookup key = b at hkey
  cases hkey with
  | none => exact .none
  | some hitem => exact .some hitem.symm

theorem trans (h : first.Same second) (h' : second.Same third) : first.Same third := by
  intro key
  have hfirst := h key
  have hsecond := h' key
  generalize first.lookup key = a, second.lookup key = b, third.lookup key = c at hfirst hsecond
  cases hfirst with
  | none =>
    cases hsecond
    exact .none
  | some hitem =>
    cases hsecond with
    | some hitem' => exact .some (hitem.trans hitem')

end Fields.Same

/-! ## Texts in quotes -/

/-- A character that is written as an escape has one of the first codes. -/
theorem toNat_lt_of_not_printable {c : Char} (h : isPrintable c = false) : c.toNat < 256 := by
  unfold isPrintable at h
  simp at h
  omega

theorem digitIn?_hexDigit {n : Nat} (h : n < 16) : digitIn? 16 (hexDigit n) = some n := by
  have hall : ∀ n : Fin 16, digitIn? 16 (hexDigit n) = some n.val := by decide
  exact hall ⟨n, h⟩

/-- The escape of a character with one of the first codes is read as that character. -/
theorem escape?_code {c : Char} (h : c.toNat < 256) (rest : List Char) :
    escape? ('u' :: '0' :: '0' :: hexDigit (c.toNat / 16) :: hexDigit (c.toNat % 16) :: rest) =
      some (c, rest) := by
  have hfirst : digitIn? 16 (hexDigit (c.toNat / 16)) = some (c.toNat / 16) :=
    digitIn?_hexDigit (by omega)
  have hsecond : digitIn? 16 (hexDigit (c.toNat % 16)) = some (c.toNat % 16) :=
    digitIn?_hexDigit (by omega)
  have hzero : digitIn? 16 '0' = some 0 := by decide
  have hvalue : valueIn 16 ['0', '0', hexDigit (c.toNat / 16), hexDigit (c.toNat % 16)] = c.toNat := by
    simp [valueIn, hfirst, hsecond, hzero]
    omega
  have hcode : codePoint? ['0', '0', hexDigit (c.toNat / 16), hexDigit (c.toNat % 16)] = some c := by
    unfold codePoint?
    rw [if_pos (by simp [hfirst, hsecond, hzero])]
    dsimp only
    rw [hvalue, if_pos (show c.toNat.isValidChar from c.valid), Char.ofNat_toNat]
  simp [escape?, hcode]

/-- **A character is read back from what stands for it between double quotes.** -/
theorem quotedRest_escaped (c : Char) (rest : List Char) :
    quotedRest (escaped c ++ rest) =
      (quotedRest rest).map fun (content, beyond) => (c :: content, beyond) := by
  unfold escaped
  by_cases hquote : c = '"'
  · subst hquote; simp [quotedRest, escape?]
  by_cases hslash : c = '\\'
  · subst hslash; simp [quotedRest, escape?]
  by_cases hfeed : c = '\n'
  · subst hfeed; simp [quotedRest, escape?]
  by_cases hreturn : c = '\r'
  · subst hreturn; simp [quotedRest, escape?]
  rw [if_neg hquote, if_neg hslash, if_neg hfeed, if_neg hreturn]
  cases hprintable : isPrintable c with
  | true =>
    rw [if_pos rfl, List.singleton_append, quotedRest.eq_4 c rest hquote hslash, if_pos hprintable]
  | false =>
    have hcode := escape?_code (toNat_lt_of_not_printable hprintable) rest
    simp [quotedRest, hcode]
    omega

/-- What stands for a character does not begin with a quote. -/
theorem escaped_begins (c : Char) : ∃ first rest, escaped c = first :: rest ∧ first ≠ '"' := by
  unfold escaped
  by_cases hquote : c = '"'
  · exact ⟨_, _, if_pos hquote, by decide⟩
  rw [if_neg hquote]
  repeat' split
  all_goals exact ⟨_, _, rfl, by first | decide | exact hquote⟩

theorem quotedRest_flatMap (text rest : List Char) :
    quotedRest (text.flatMap escaped ++ '"' :: rest) = some (text, rest) := by
  induction text with
  | nil => simp [quotedRest]
  | cons c text ih => rw [List.flatMap_cons, List.append_assoc, quotedRest_escaped, ih, Option.map_some]

/-! ## Keys and values -/

/-- Something is written that reads back as a key, wherever no bare character comes behind it. -/
structure SpellsKey (key : List Char) (name : String) : Prop where
  begins : ∃ c rest, key = c :: rest ∧ c ≠ '[' ∧ c ≠ '#' ∧ c ≠ '\n' ∧ c ≠ '\r' ∧ c ≠ '\uFEFF' ∧
    isGap c = false
  reads : ∀ c rest, isBareChar c = false → keyPart? (key ++ c :: rest) = some (name, c :: rest)

/-- Something is written that reads back as a value, wherever the end of a line comes behind it. -/
structure SpellsValue (value : List Char) (node : Node) : Prop where
  begins : ∃ c rest, value = c :: rest ∧ isGap c = false
  reads : ∀ rest, value? nestingLimit (value ++ '\n' :: rest) = some (node, '\n' :: rest)

theorem quote_append (text : String) (rest : List Char) :
    quote text ++ rest = '"' :: (text.toList.flatMap escaped ++ '"' :: rest) := by
  unfold quote
  simp

theorem spellsKey_quote (text : String) : SpellsKey (quote text) text where
  begins := ⟨'"', _, rfl, by decide⟩
  reads c rest _ := by
    rw [quote_append, keyPart?, quotedRest_flatMap, Option.map_some]
    simp

/-- A run of characters of a class ends where the next one is not of the class. -/
theorem run_of_class {p : Char → Bool} {run : List Char} {c : Char} (h : run.all p = true)
    (hc : p c = false) (rest : List Char) :
    (run ++ c :: rest).takeWhile p = run ∧ (run ++ c :: rest).dropWhile p = c :: rest := by
  rw [List.all_eq_true] at h
  rw [List.takeWhile_append_of_pos h, List.dropWhile_append_of_pos h, List.takeWhile_cons,
    List.dropWhile_cons, hc]
  simp

/-- A word of bare characters is a key. -/
theorem spellsKey_bare {name : String} (h : name.toList.all isBareChar = true)
    (hne : name.toList ≠ []) : SpellsKey name.toList name := by
  obtain ⟨first, others, hname⟩ := List.exists_cons_of_ne_nil hne
  have hbare : isBareChar first = true := by
    rw [hname, List.all_cons, Bool.and_eq_true] at h
    exact h.1
  have hother : ∀ other, isBareChar other = false → first ≠ other := by
    rintro other hother rfl
    rw [hbare] at hother
    cases hother
  refine ⟨⟨first, others, hname, ?_⟩, fun c rest hc => ?_⟩
  · refine ⟨hother _ (by decide), hother _ (by decide), hother _ (by decide), hother _ (by decide),
      hother _ (by decide), ?_⟩
    unfold isGap
    simp [hother ' ' (by decide), hother '\t' (by decide)]
  · obtain ⟨htake, hdrop⟩ := run_of_class h hc rest
    rw [hname, List.cons_append] at htake hdrop
    have hread := keyPart?.eq_3 (first :: (others ++ c :: rest))
      (fun _ heq => hother '"' (by decide) (List.cons.inj heq).1)
      (fun _ heq => hother '\'' (by decide) (List.cons.inj heq).1)
    rw [htake, hdrop] at hread
    have hspelling : String.ofList (first :: others) = name := by rw [← hname, String.ofList_toList]
    rw [hname, List.cons_append, hread]
    dsimp only
    rw [hspelling]

theorem spellsKey_spelledKey (name : String) : SpellsKey (spelledKey name) name := by
  unfold spelledKey
  split
  · next h => exact spellsKey_bare h.2 h.1
  · exact spellsKey_quote name

/-- A text in quotes ends with them if the line ends there. -/
theorem quoted?_quote (text : String) (rest : List Char) :
    quoted? (quote text ++ '\n' :: rest) = some (text, '\n' :: rest) := by
  have hread := quotedRest_flatMap text.toList ('\n' :: rest)
  rw [quote_append]
  cases htext : text.toList with
  | nil =>
    have hempty : String.ofList [] = text := by rw [← htext, String.ofList_toList]
    simp [quoted?, quotedRest, hempty]
  | cons c others =>
    obtain ⟨first, more, hfirst, hne⟩ := escaped_begins c
    rw [htext, List.flatMap_cons, hfirst] at hread
    rw [List.flatMap_cons, hfirst]
    simp only [List.cons_append, List.append_assoc] at hread ⊢
    simp [quoted?, hne, hread, ← htext]

theorem spellsValue_quote (text : String) : SpellsValue (quote text) (.text text) where
  begins := ⟨'"', _, rfl, by decide⟩
  reads rest := by
    have hquoted := quoted?_quote text rest
    rw [quote_append] at hquoted ⊢
    simp [value?, hquoted]

/-- A word is read as what it says. -/
theorem word?_append (word : List Char) (h : word.all isWordChar = true) (hdate : date? word = none)
    (rest : List Char) :
    word? (word ++ '\n' :: rest) = (scalar? word).map (·, '\n' :: rest) := by
  obtain ⟨htake, hdrop⟩ := run_of_class h (show isWordChar '\n' = false by decide) rest
  unfold word?
  rw [htake, hdrop]
  dsimp only
  rw [hdate]

theorem spellsValue_boolean (value : Bool) : SpellsValue (booleanWord value) (.boolean value) := by
  cases value with
  | true =>
    refine ⟨⟨'t', _, rfl, by decide⟩, fun rest => ?_⟩
    exact word?_append ['t', 'r', 'u', 'e'] (by decide) rfl rest
  | false =>
    refine ⟨⟨'f', _, rfl, by decide⟩, fun rest => ?_⟩
    exact word?_append ['f', 'a', 'l', 's', 'e'] (by decide) rfl rest

/-! ## Lines -/

theorem skipGap_of_word {c : Char} (h : isGap c = false) (rest : List Char) :
    skipGap (c :: rest) = c :: rest := by
  unfold skipGap
  rw [List.dropWhile_cons, h]
  simp

/-- Where a line begins with a key there is nothing to be passed over. -/
theorem skipLines_of_key {c : Char} (hcomment : c ≠ '#') (hfeed : c ≠ '\n') (hreturn : c ≠ '\r')
    (hgap : isGap c = false) (rest : List Char) : skipLines (c :: rest) = c :: rest := by
  have hstays : newline? (skipComment (c :: rest)) = none := by
    rw [skipComment.eq_2 _ fun _ heq => hcomment (List.cons.inj heq).1,
      newline?.eq_3 _ (fun _ heq => hfeed (List.cons.inj heq).1)
        fun _ heq => hreturn (List.cons.inj heq).1]
  rw [skipLines, skipGap_of_word hgap, hstays]

section

variable {key value : List Char} {name : String} {node : Node}

/-- A key on its own is read, and the gap behind it. -/
theorem SpellsKey.key? (h : SpellsKey key name) {c mark : Char} {rest beyond : List Char}
    (hbare : isBareChar c = false) (hskip : skipGap (c :: rest) = mark :: beyond) (hmark : mark ≠ '.') :
    Toml.key? (key ++ c :: rest) = some (([], name), mark :: beyond) := by
  obtain ⟨first, others, hkey, -, -, -, -, -, hgap⟩ := h.begins
  have hparts : keyParts? (key ++ c :: rest) = some ([name], mark :: beyond) := by
    have hstays : skipGap (key ++ c :: rest) = key ++ c :: rest := by
      rw [hkey]
      exact skipGap_of_word hgap _
    rw [keyParts?, hstays, h.reads c rest hbare]
    dsimp only
    rw [hskip]
    split
    · next heq => exact absurd (List.cons.inj heq).1 hmark
    · rfl
  unfold Toml.key?
  rw [hparts]
  rfl

/-- **A line is read as the assignment that was written.** -/
theorem assignmentLine?_line (hkey : SpellsKey key name) (hvalue : SpellsValue value node)
    (rest : List Char) :
    assignmentLine? (line key value ++ rest) = some (.assignment [] name node, rest) := by
  obtain ⟨c, others, hbegins, hgap⟩ := hvalue.begins
  have hline : line key value ++ rest = key ++ ' ' :: '=' :: ' ' :: (value ++ '\n' :: rest) := by
    unfold line
    simp
  have hskip : skipGap (' ' :: (value ++ '\n' :: rest)) = value ++ '\n' :: rest := by
    rw [hbegins]
    exact skipGap_of_word hgap _
  have hpair : pair? (value? nestingLimit) (line key value ++ rest) =
      some ((([], name), node), '\n' :: rest) := by
    have hread : Toml.key? (key ++ ' ' :: '=' :: ' ' :: (value ++ '\n' :: rest)) =
        some (([], name), '=' :: ' ' :: (value ++ '\n' :: rest)) :=
      hkey.key? (by decide) rfl (by decide)
    rw [hline]
    simp only [pair?, hread, hskip, hvalue.reads, Option.map_some]
  unfold assignmentLine?
  rw [hpair]
  rfl

/-- **A header is read as the one that was written.** -/
theorem headerLine?_headerLine (hkey : SpellsKey key name) (rest : List Char) :
    headerLine? (headerLine key ++ rest) = some (.header [] name, rest) := by
  obtain ⟨c, others, hbegins, hbracket, -⟩ := hkey.begins
  have hline : headerLine key ++ rest = '[' :: (key ++ ']' :: '\n' :: rest) := by
    unfold headerLine
    simp
  have hread : Toml.key? (key ++ ']' :: '\n' :: rest) = some (([], name), ']' :: '\n' :: rest) :=
    hkey.key? (by decide) rfl (by decide)
  rw [hline]
  rw [hbegins, List.cons_append] at hread ⊢
  simp [headerLine?, hbracket, hread, lineEnd?, skipComment, newline?, skipGap, isGap]

/-- A document whose first line is read goes on behind that line. -/
theorem statements?_cons {text beyond rest : List Char} {c : Char} {statement : Statement}
    (hskip : skipLines text = c :: beyond) (hcomment : c ≠ '#')
    (hread : (if c = '[' then headerLine? (c :: beyond) else assignmentLine? (c :: beyond)) =
      some (statement, rest)) (hlength : rest.length < text.length) :
    statements? text = (statements? rest).map (statement :: ·) := by
  rw [statements?, hskip]
  by_cases hbracket : c = '['
  · subst hbracket
    rw [if_pos rfl] at hread
    simp [hread, hlength]
  · rw [if_neg hbracket] at hread
    simp [hcomment, hbracket, hread, hlength]

/-- **A document that begins with a line begins with the assignment that was written.** -/
theorem statements?_line (hkey : SpellsKey key name) (hvalue : SpellsValue value node)
    (rest : List Char) :
    statements? (line key value ++ rest) =
      (statements? rest).map (.assignment [] name node :: ·) := by
  have hread := assignmentLine?_line hkey hvalue rest
  obtain ⟨c, others, hbegins, hbracket, hcomment, hfeed, hreturn, -, hgap⟩ := hkey.begins
  obtain ⟨beyond, hline⟩ : ∃ beyond, line key value ++ rest = c :: beyond := by
    rw [hbegins]
    exact ⟨_, rfl⟩
  have hlength : rest.length < (line key value ++ rest).length := by
    simp [line]
    omega
  rw [hline] at hread hlength ⊢
  exact statements?_cons (skipLines_of_key hcomment hfeed hreturn hgap beyond) hcomment
    (by rw [if_neg hbracket, hread]) hlength

/-- A document that goes on with a header opens the table. The empty line before it is passed over. -/
theorem statements?_header (hkey : SpellsKey key name) (rest : List Char) :
    statements? ('\n' :: headerLine key ++ rest) = (statements? rest).map (.header [] name :: ·) := by
  have hread := headerLine?_headerLine hkey rest
  obtain ⟨beyond, hbeyond⟩ : ∃ beyond, headerLine key ++ rest = '[' :: beyond := ⟨_, rfl⟩
  have hlength : rest.length < ('\n' :: (headerLine key ++ rest)).length := by
    simp [headerLine]
    omega
  rw [List.cons_append]
  rw [hbeyond] at hread hlength ⊢
  have hskip : skipLines ('\n' :: '[' :: beyond) = '[' :: beyond := by
    simp [skipLines, skipGap, skipComment, newline?, isGap]
  exact statements?_cons hskip (by decide) (by rw [if_pos rfl, hread]) hlength

end

/-! ## Documents -/

/-- The entries of a table of texts. -/
def textEntries (texts : List (String × String)) : Entries :=
  texts.map fun entry => (entry.1, .text entry.2)

/-- The node that is written for an item. -/
def Item.node : Item → Node
  | .boolean value => .boolean value
  | .text value => .text value
  | .texts entries => .table .header (textEntries entries)
  | .other => .array []

/-- The statements of a field. -/
def fieldStatements : String × Item → List Statement
  | (key, .boolean value) => [.assignment [] key (Item.boolean value).node]
  | (key, .text value) => [.assignment [] key (Item.text value).node]
  | (key, .texts entries) =>
    .header [] key :: entries.map fun entry => .assignment [] entry.1 (.text entry.2)
  | (_, .other) => []

theorem statements?_texts (entries : List (String × String)) (rest : List Char) :
    statements? (entries.flatMap (fun entry => line (spelledKey entry.1) (quote entry.2)) ++ rest) =
      (statements? rest).map
        (entries.map (fun entry => Statement.assignment [] entry.1 (.text entry.2)) ++ ·) := by
  induction entries with
  | nil => simp
  | cons entry entries ih =>
    rw [List.flatMap_cons, List.append_assoc,
      statements?_line (spellsKey_spelledKey _) (spellsValue_quote _), ih, Option.map_map]
    rfl

theorem statements?_field (field : String × Item) (rest : List Char) :
    statements? (fieldLines field ++ rest) = (statements? rest).map (fieldStatements field ++ ·) := by
  obtain ⟨key, item⟩ := field
  have hkey := spellsKey_spelledKey key
  cases item with
  | boolean value => exact statements?_line hkey (spellsValue_boolean value) rest
  | text value => exact statements?_line hkey (spellsValue_quote value) rest
  | texts entries =>
    rw [fieldLines, List.append_assoc, statements?_header hkey, statements?_texts, Option.map_map]
    rfl
  | other => simp [fieldLines, fieldStatements]

/-- **The lines that are written are read as the statements they stand for.** -/
theorem statements?_fields : ∀ fields : Fields,
    statements? (fields.flatMap fieldLines) = some (fields.flatMap fieldStatements)
  | [] => by simp [statements?, skipLines, skipGap, skipComment, newline?]
  | field :: rest => by
    rw [List.flatMap_cons, List.flatMap_cons, statements?_field, statements?_fields rest]
    rfl

/-! ## Entries -/

/-- Where no key occurs twice, none occurs before its entry. -/
theorem not_mem_of_distinct {α : Type} {before behind : List (String × α)} {key : String} {value : α}
    (h : ((before ++ (key, value) :: behind).map Prod.fst).Nodup) : key ∉ before.map Prod.fst := by
  rw [List.map_append, List.map_cons, List.nodup_append] at h
  exact fun hmem => h.2.2 key hmem key List.mem_cons_self rfl

/-- What is bound behind other names is bound again at its place. -/
theorem put_behind {α : Type} {name : String} {old value : α} {first : List (String × α)}
    (h : name ∉ Bindings.keys first) (rest : List (String × α)) :
    Bindings.put name value (first ++ (name, old) :: rest) = first ++ (name, value) :: rest := by
  induction first with
  | nil => simp [Bindings.put]
  | cons binding first ih =>
    obtain ⟨key, bound⟩ := binding
    obtain ⟨hkey, hfirst⟩ := not_or.mp fun hmem => h (List.mem_cons.mpr hmem)
    rw [List.cons_append, Bindings.put, if_neg fun heq => hkey heq.symm, ih hfirst, List.cons_append]

/-- The entries that are written for a table. -/
def Fields.nodes (fields : Fields) : Entries :=
  fields.map fun field => (field.1, field.2.node)

theorem keys_textEntries (texts : List (String × String)) :
    Bindings.keys (textEntries texts) = texts.map Prod.fst := by
  unfold textEntries Bindings.keys
  rw [List.map_map]
  rfl

theorem keys_nodes (fields : Fields) : Bindings.keys fields.nodes = fields.map Prod.fst := by
  unfold Fields.nodes Bindings.keys
  rw [List.map_map]
  rfl

theorem nodes_append (first second : Fields) :
    Fields.nodes (first ++ second) = first.nodes ++ second.nodes :=
  List.map_append

/-- What is written of an item says the item. -/
theorem item_node {item : Item} (h : item ≠ .other) : item.node.item = item := by
  cases item with
  | boolean value => rfl
  | text value => rfl
  | texts entries =>
    have htexts : texts? (textEntries entries) = some entries := by
      unfold texts? textEntries
      induction entries with
      | nil => rfl
      | cons entry rest ih => simp [List.mapM_cons, ih]
    rw [Item.node, Node.item, htexts]
    rfl
  | other => exact absurd rfl h

/-! ## Statements carried out -/

/-- The assignment of a new key adds it to a table. -/
theorem assign_of_not_mem {name : String} {entries : Entries} (h : name ∉ Bindings.keys entries)
    (node : Node) : assign name node [] entries = some (entries ++ [(name, node)]) := by
  rw [assign, Bindings.lookup_eq_none h]
  rfl

section

variable {had : Fields}

/-- A value is added to the fields that there are. -/
theorem value_assigned {key : String} (hnew : key ∉ had.map Prod.fst) (item : Item) :
    Draft.apply? { entries := had.nodes } (.assignment [] key item.node) =
      some { entries := Fields.nodes (had ++ [(key, item)]) } := by
  rw [← keys_nodes] at hnew
  simp only [ Draft.apply?, within, assign_of_not_mem hnew, Option.map_some, nodes_append]
  rfl

/-- A draft in which a table of texts is open behind other fields. -/
def opened (had : Fields) (key : String) (texts : List (String × String)) : Draft where
  entries := Fields.nodes (had ++ [(key, .texts texts)])
  path := [key]

/-- A header opens a table behind the fields that there are. -/
theorem header_opens {key : String} (hnew : key ∉ had.map Prod.fst) (path : List String) :
    Draft.apply? { entries := had.nodes, path } (.header [] key) = some (opened had key []) := by
  rw [← keys_nodes] at hnew
  simp only [ Draft.apply?, within, openTable, Bindings.lookup_eq_none hnew, Option.map_some, opened,
    nodes_append]
  rfl

/-- An assignment adds a text to the open table. -/
theorem text_assigned {key : String} (hnew : key ∉ had.map Prod.fst) {texts : List (String × String)}
    {name : String} (hname : name ∉ texts.map Prod.fst) (text : String) :
    Draft.apply? (opened had key texts) (.assignment [] name (.text text)) =
      some (opened had key (texts ++ [(name, text)])) := by
  rw [← keys_nodes] at hnew
  rw [← keys_textEntries] at hname
  have hlookup : (Fields.nodes (had ++ [(key, .texts texts)])).lookup key =
      some (.table .header (textEntries texts)) := by
    rw [nodes_append, List.lookup_append, Bindings.lookup_eq_none hnew]
    simp [Fields.nodes, Item.node]
  have hput : Bindings.put key (.table .header (textEntries (texts ++ [(name, text)])))
      (Fields.nodes (had ++ [(key, .texts texts)])) =
        Fields.nodes (had ++ [(key, .texts (texts ++ [(name, text)]))]) := by
    rw [nodes_append, nodes_append]
    exact put_behind hnew []
  have hentries : textEntries (texts ++ [(name, text)]) = textEntries texts ++ [(name, .text text)] :=
    List.map_append
  simp only [ Draft.apply?, opened, within, hlookup, assign_of_not_mem hname, Option.map_some, ← hentries,
    hput]

theorem texts_assigned {key : String} (hnew : key ∉ had.map Prod.fst) :
    ∀ entries texts : List (String × String), ((texts ++ entries).map Prod.fst).Nodup →
      (entries.map fun entry => Statement.assignment [] entry.1 (.text entry.2)).foldlM
        Draft.apply? (opened had key texts) = some (opened had key (texts ++ entries))
  | [], texts, _ => by simp
  | (name, text) :: rest, texts, hdistinct => by
    have hrest := texts_assigned hnew rest (texts ++ [(name, text)]) (by simpa using hdistinct)
    rw [List.map_cons, List.foldlM_cons]
    dsimp only
    rw [text_assigned hnew (not_mem_of_distinct hdistinct)]
    simpa using hrest

end

/-- The values are assigned one after the other. -/
theorem foldlM_values (values had : Fields) (hdistinct : ((had ++ values).map Prod.fst).Nodup)
    (hvalues : ∀ field ∈ values, field.2.isTable = false ∧ field.2 ≠ .other) :
    (values.flatMap fieldStatements).foldlM Draft.apply? { entries := had.nodes } =
      some { entries := Fields.nodes (had ++ values) } := by
  induction values generalizing had with
  | nil => simp
  | cons field rest ih =>
    obtain ⟨key, item⟩ := field
    obtain ⟨⟨hitem, hknown⟩, hrest⟩ := List.forall_mem_cons.mp hvalues
    have hassigned := ih (had ++ [(key, item)]) (by simpa using hdistinct) hrest
    rw [List.flatMap_cons, List.foldlM_append]
    cases item with
    | texts entries => cases hitem
    | other => exact absurd rfl hknown
    | boolean value | text value =>
      rw [fieldStatements, List.foldlM_cons, value_assigned (not_mem_of_distinct hdistinct)]
      simpa using hassigned

/-- The tables are opened one after the other, and their texts assigned. -/
theorem foldlM_tables (tables had : Fields) (path : List String)
    (hdistinct : ((had ++ tables).map Prod.fst).Nodup)
    (htables : ∀ field ∈ tables, field.2.isTable = true)
    (hinside : ∀ key entries, (key, .texts entries) ∈ tables → (entries.map Prod.fst).Nodup) :
    ((tables.flatMap fieldStatements).foldlM Draft.apply? { entries := had.nodes, path }).map
      Draft.entries = some (Fields.nodes (had ++ tables)) := by
  induction tables generalizing had path with
  | nil => simp
  | cons field rest ih =>
    obtain ⟨key, item⟩ := field
    obtain ⟨hitem, hrest⟩ := List.forall_mem_cons.mp htables
    rw [List.flatMap_cons, List.foldlM_append]
    cases item with
    | texts entries =>
      have hnew := not_mem_of_distinct hdistinct
      have htexts := texts_assigned hnew entries [] (hinside key entries List.mem_cons_self)
      have hopened := ih (had ++ [(key, .texts entries)]) [key] (by simpa using hdistinct) hrest
        fun key entries hmem => hinside key entries (List.mem_cons_of_mem _ hmem)
      rw [fieldStatements, List.foldlM_cons, header_opens hnew]
      simp only [Option.bind_eq_bind, Option.bind_some, htexts]
      simpa [opened] using hopened
    | boolean value => cases hitem
    | text value => cases hitem
    | other => cases hitem

theorem written_perm (fields : Fields) : fields.written.Perm fields := by
  have h := List.filter_append_perm (fun field : String × Item => field.2.isTable) fields
  exact List.perm_append_comm.trans h

/-- **Carrying out the statements of a written document gives each key what was written for it.** -/
theorem ofStatements?_written {fields : Fields} (h : fields.Plain) :
    ofStatements? (fields.written.flatMap fieldStatements) = some fields.written.nodes := by
  have hdistinct : (fields.written.map Prod.fst).Nodup :=
    ((written_perm fields).map Prod.fst).nodup_iff.mpr h.distinct
  have hvalues := foldlM_values (fields.filter fun field => !field.2.isTable) []
    (h.distinct.sublist (List.filter_sublist.map _)) fun field hmem =>
      ⟨by simpa using (List.mem_filter.mp hmem).2, h.known field (List.mem_filter.mp hmem).1⟩
  have htables := foldlM_tables (fields.filter fun field => field.2.isTable)
    (fields.filter fun field => !field.2.isTable) [] hdistinct
    (fun field hmem => (List.mem_filter.mp hmem).2)
    fun key entries hmem => h.inside key entries (List.mem_filter.mp hmem).1
  have hstart : ({} : Draft) = { entries := Fields.nodes [] } := rfl
  unfold ofStatements? Fields.written
  rw [List.flatMap_append, List.foldlM_append, hstart, hvalues]
  exact htables

/-! ## The library -/

/-- No line begins with a byte order mark. -/
theorem fieldLines_begins (field : String × Item) : (fieldLines field).head? ≠ some '\uFEFF' := by
  obtain ⟨key, item⟩ := field
  obtain ⟨c, rest, hkey, -, -, -, -, hmark, -⟩ := (spellsKey_spelledKey key).begins
  cases item with
  | boolean value | text value =>
    rw [fieldLines, line, hkey]
    simpa using hmark
  | texts entries => simp [fieldLines]
  | other => simp [fieldLines]

theorem flatMap_fieldLines_begins : ∀ fields : Fields,
    (fields.flatMap fieldLines).head? ≠ some '\uFEFF'
  | [] => nofun
  | field :: rest => by
    rw [List.flatMap_cons, List.head?_append]
    cases hfield : (fieldLines field).head? with
    | none => exact flatMap_fieldLines_begins rest
    | some c =>
      rw [Option.some_or, ← hfield]
      exact fieldLines_begins field

/-- **What is written of a plain table is read back**, with the tables in it last. -/
theorem read?_written {fields : Fields} (h : fields.Plain) :
    read? (String.ofList (fields.written.flatMap fieldLines)) = some fields.written.nodes := by
  have hbegins := flatMap_fieldLines_begins fields.written
  unfold read?
  rw [String.toList_ofList]
  split
  · next heq =>
    rw [heq] at hbegins
    exact absurd rfl hbegins
  · dsimp only
    rw [statements?_fields, Option.bind_some, ofStatements?_written h]

theorem builtin_write {fields : Fields} (h : fields.Plain) :
    Library.builtin.write fields = some (String.ofList (fields.written.flatMap fieldLines)) := by
  have hknown : (fields.any fun field => field.2 = .other) = false := by
    rw [List.any_eq_false]
    exact fun field hmem => by simpa using h.known field hmem
  unfold Library.builtin write?
  dsimp only
  rw [hknown]
  rfl

theorem builtin_read {fields : Fields} (h : fields.Plain) :
    Library.builtin.read (String.ofList (fields.written.flatMap fieldLines)) = some fields.written := by
  have hitems : fields.written.nodes.map (fun entry => (entry.1, entry.2.item)) = fields.written := by
    unfold Fields.nodes
    rw [List.map_map]
    refine (List.map_congr_left fun field hmem => ?_).trans (List.map_id _)
    exact Prod.ext rfl (item_node (h.known field ((written_perm fields).mem_iff.mp hmem)))
  unfold Library.builtin
  dsimp only
  rw [read?_written h, Option.map_some, hitems]

/-- The standard by which a text says what the built-in library reads in it. -/
def builtinStandard : Standard where
  Says text fields := ∃ read, Library.builtin.read text = some read ∧ read.Same fields
  unambiguous := by
    rintro text first second ⟨read, hread, hfirst⟩ ⟨read', hread', hsecond⟩
    cases hread.symm.trans hread'
    exact hfirst.symm.trans hsecond

/-- **The built-in library writes documents.** -/
theorem builtin_writes : Library.builtin.Writes builtinStandard := fun fields h =>
  ⟨_, builtin_write h, fields.written, builtin_read h,
    .of_lookup_eq (Bindings.lookup_of_perm (written_perm fields)
      (((written_perm fields).map Prod.fst).nodup_iff.mpr h.distinct))⟩

/-- **The built-in library reads documents.** -/
theorem builtin_reads : Library.builtin.Reads builtinStandard := fun _ _ _ ⟨read, hread, _⟩ =>
  ⟨read, hread, read, hread, .of_lookup_eq fun _ => rfl⟩

end Injector.Toml
