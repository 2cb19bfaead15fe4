import Injector.Proofs.Resolution.Places

/-!
# The algebra of completing definitions

Completing a definition by its parent joins two lists of names and sets the child's properties over
those of the parent. Both go through a list one by one and look at what was collected so far, so the
order of names and which of several values stays are matters of the whole list. `joinNames_eq`,
`Bindings.keys_putAll` and `Bindings.lookup_putAll` say what comes of it.

Completing is associative (`DefinitionOf.overlay_assoc`): whether a definition is completed by a parent
that is complete, or completes the parent first that is completed then, gives the same in every field.
For the two lists this comes down to one step: adding to what was joined is joining what was added to
(`joinNames_concat`, `Bindings.putAll_put`). For properties it needs that the definition in the middle
sets none of them twice, which definitions never do: they set their properties one by one
(`DefinitionOf.Built.wellFormed`).
-/

namespace Injector

/-! ## Joining names -/

theorem joinNames_cons (first : List String) (name : String) (rest : List String) :
    joinNames first (name :: rest) =
      joinNames (if name ∈ first then first else first ++ [name]) rest := by
  unfold joinNames
  rw [List.foldl_cons]
  simp only [List.contains_iff_mem]

/-- **Joining adds the names that are new, each where it comes first.** -/
theorem joinNames_eq (first second : List String) :
    joinNames first second = first ++ (second.filter (· ∉ first)).eraseDups := by
  induction second generalizing first with
  | nil => exact (List.append_nil first).symm
  | cons name rest ih =>
    rw [joinNames_cons, ih]
    by_cases hmem : name ∈ first
    · rw [if_pos hmem, List.filter_cons_of_neg (by simpa using hmem)]
    · rw [if_neg hmem, List.filter_cons_of_pos (by simpa using hmem), List.eraseDups_cons,
        List.filter_filter, List.append_assoc]
      -- what is new behind the name is new before it and another name
      refine congrArg (first ++ name :: List.eraseDups ·) (List.filter_congr fun other _ => ?_)
      rw [Bool.eq_iff_iff]
      simp [not_or, and_comm]

/-- Names that do not repeat have no repetitions to be left out. -/
theorem eraseDups_of_nodup {names : List String} (h : names.Nodup) : names.eraseDups = names := by
  induction names with
  | nil => rfl
  | cons name rest ih =>
    obtain ⟨hnew, hrest⟩ := List.nodup_cons.mp h
    have hkept : rest.filter (fun other => !other == name) = rest := by
      rw [List.filter_eq_self]
      intro other hmem
      have hne : other ≠ name := fun heq => hnew (heq ▸ hmem)
      simpa using hne
    rw [List.eraseDups_cons, hkept, ih hrest]

/-- Adding a name to what was joined is joining with the name added. -/
theorem joinNames_concat (first second : List String) (name : String) :
    joinNames first (if name ∈ second then second else second ++ [name]) =
      if name ∈ joinNames first second then joinNames first second
      else joinNames first second ++ [name] := by
  by_cases hmem : name ∈ second
  · rw [if_pos hmem, if_pos ((mem_joinNames _ _ _).mpr (Or.inr hmem))]
  · rw [if_neg hmem]
    unfold joinNames
    rw [List.foldl_append, List.foldl_cons, List.foldl_nil]
    simp only [List.contains_iff_mem]

/-- **Joining names is associative.** -/
theorem joinNames_assoc (first second third : List String) :
    joinNames (joinNames first second) third = joinNames first (joinNames second third) := by
  induction third generalizing second with
  | nil => rfl
  | cons name rest ih => rw [joinNames_cons, joinNames_cons, ← joinNames_concat, ih]

/-! ## Setting properties -/

namespace Bindings

variable {α : Type}

/-- Binds the names of the added bindings, one after the other. -/
def putAll (bindings added : List (String × α)) : List (String × α) :=
  added.foldl (fun bindings new => put new.1 new.2 bindings) bindings

theorem putAll_cons (bindings : List (String × α)) (new : String × α) (rest : List (String × α)) :
    putAll bindings (new :: rest) = putAll (put new.1 new.2 bindings) rest :=
  rfl

/-- Of two values for a name, the later one stays. -/
theorem put_put (name : String) (old value : α) (bindings : List (String × α)) :
    put name value (put name old bindings) = put name value bindings := by
  induction bindings with
  | nil => simp [put]
  | cons binding rest ih =>
    obtain ⟨key, bound⟩ := binding
    by_cases hkey : key = name
    · simp [put, hkey]
    · simp [put, hkey, ih]

/-- A name that is bound keeps its place, so it may be bound anew before another name or after it. -/
theorem put_comm {name other : String} (value new : α) {bindings : List (String × α)}
    (hbound : name ∈ keys bindings) (hother : other ≠ name) :
    put name value (put other new bindings) = put other new (put name value bindings) := by
  induction bindings with
  | nil => cases hbound
  | cons binding rest ih =>
    obtain ⟨key, bound⟩ := binding
    by_cases hkey : key = name
    · subst hkey
      simp [put, hother.symm]
    · have hrest : name ∈ keys rest := (List.mem_cons.mp hbound).resolve_left (Ne.symm hkey)
      by_cases hsame : key = other
      · subst hsame
        simp [put, hother]
      · simp [put, hkey, hsame, ih hrest]

/-- A name that is bound may be bound anew before others are or after them. -/
theorem put_putAll {name : String} (value : α) {bindings added : List (String × α)}
    (hbound : name ∈ keys bindings) (hnew : name ∉ keys added) :
    put name value (putAll bindings added) = putAll (put name value bindings) added := by
  induction added generalizing bindings with
  | nil => rfl
  | cons new rest ih =>
    rw [keys, List.map_cons, List.mem_cons, not_or] at hnew
    have hstill : name ∈ keys (put new.1 new.2 bindings) := by
      rw [keys_put]
      split
      · exact hbound
      · exact List.mem_append_left _ hbound
    rw [putAll_cons, putAll_cons, ih hstill hnew.2, put_comm _ _ hbound (Ne.symm hnew.1)]

/-- Binding a name after others is binding others among which it is bound. -/
theorem putAll_put (name : String) (value : α) {bindings added : List (String × α)}
    (hnodup : (keys added).Nodup) :
    putAll bindings (put name value added) = put name value (putAll bindings added) := by
  induction added generalizing bindings with
  | nil => rfl
  | cons new rest ih =>
    obtain ⟨key, old⟩ := new
    obtain ⟨hnew, hnodup⟩ := List.nodup_cons.mp hnodup
    by_cases hkey : key = name
    · subst hkey
      have hbound : key ∈ keys (put key old bindings) := by
        rw [keys_put]
        split
        · assumption
        · exact List.mem_append_right _ (List.mem_singleton_self key)
      rw [put, if_pos rfl, putAll_cons, putAll_cons, put_putAll value hbound hnew, put_put]
    · rw [put, if_neg hkey, putAll_cons, putAll_cons, ih hnodup]

/-- **Binding names over others that were bound over yet others is associative.** -/
theorem putAll_assoc (first : List (String × α)) {second : List (String × α)}
    (third : List (String × α)) (hnodup : (keys second).Nodup) :
    putAll (putAll first second) third = putAll first (putAll second third) := by
  induction third generalizing second with
  | nil => rfl
  | cons new rest ih =>
    rw [putAll_cons, putAll_cons, ← putAll_put _ _ hnodup, ih (nodup_keys_put hnodup)]

/-- **The bound names are joined.** -/
theorem keys_putAll (bindings added : List (String × α)) :
    keys (putAll bindings added) = joinNames (keys bindings) (keys added) := by
  induction added generalizing bindings with
  | nil => rfl
  | cons new rest ih =>
    rw [putAll_cons, ih, keys_put]
    exact (joinNames_cons (keys bindings) new.1 (keys rest)).symm

/-- **A name is bound to what was added for it, or else to what it was bound to before.** -/
theorem lookup_putAll {bindings added : List (String × α)} (hnodup : (keys added).Nodup)
    (name : String) :
    (putAll bindings added).lookup name = (added.lookup name).or (bindings.lookup name) := by
  induction added generalizing bindings with
  | nil => rfl
  | cons new rest ih =>
    obtain ⟨key, value⟩ := new
    obtain ⟨hnew, hnodup⟩ := List.nodup_cons.mp hnodup
    rw [putAll_cons, ih hnodup, lookup_put, lookup_cons]
    by_cases hname : name = key
    · subst hname
      have hnone : rest.lookup name = none := by
        rw [List.lookup_eq_none_iff]
        intro binding hmem
        rw [bne_iff_ne]
        rintro rfl
        exact hnew (List.mem_map.mpr ⟨binding, hmem, rfl⟩)
      rw [if_pos rfl, if_pos rfl, hnone, Option.none_or, Option.some_or]
    · rw [if_neg hname, if_neg hname]

end Bindings

/-! ## Definitions -/

namespace DefinitionOf

variable {ρ : Type}

/-! ### How definitions are put together -/

/-- A definition that says nothing yet, or only which one it completes, and what is said of it from
there, step by step. -/
inductive Built : DefinitionOf ρ → Prop
  | blank : Built {}
  | childOf (parent : String) : Built { parent := some parent }
  | withClass {definition : DefinitionOf ρ} (h : Built definition) (className : String) :
      Built { definition with className := some className }
  | withScope {definition : DefinitionOf ρ} (h : Built definition) (scope : Scope) :
      Built { definition with declaredScope := some scope }
  | withPrerequisite {definition : DefinitionOf ρ} (h : Built definition) (name : String) :
      Built (definition.withPrerequisite name)
  | withPrerequisites {definition : DefinitionOf ρ} (h : Built definition) (names : List String) :
      Built { definition with dependsOn := names }
  | synthetic {definition : DefinitionOf ρ} (h : Built definition) (flag : Bool) :
      Built { definition with synthetic := flag }
  | primary {definition : DefinitionOf ρ} (h : Built definition) (flag : Bool) :
      Built { definition with primary := flag }
  | lazy {definition : DefinitionOf ρ} (h : Built definition) (flag : Bool) :
      Built { definition with lazy := flag }
  | withResource {definition : DefinitionOf ρ} (h : Built definition) (resource : String) :
      Built { definition with resource := some resource }
  | withArgument {definition : DefinitionOf ρ} (h : Built definition) (value : ρ) :
      Built (definition.withArgument value)
  | withArguments {definition : DefinitionOf ρ} (h : Built definition) (values : List ρ) :
      Built { definition with arguments := values }
  | withProperty {definition : DefinitionOf ρ} (h : Built definition) (name : String) (value : ρ) :
      Built (definition.withProperty name value)
  | withoutParent {definition : DefinitionOf ρ} (h : Built definition) :
      Built { definition with parent := none }

namespace Built

variable {definition : DefinitionOf ρ}

theorem wellFormed (h : Built definition) : definition.WellFormed := by
  induction h with
  | blank | childOf => exact List.Pairwise.nil
  | withProperty _ name value ih => exact ih.withProperty name value
  | _ => assumption

end Built

/-! ### Completing -/

/-- **Completing is associative**, if the definition in the middle sets no property twice. -/
theorem overlay_assoc (first : DefinitionOf ρ) {second : DefinitionOf ρ} (third : DefinitionOf ρ)
    (h : second.WellFormed) :
    (first.overlay second).overlay third = first.overlay (second.overlay third) := by
  have harguments (arguments : List ρ) :
      (if third.arguments.isEmpty then
        if second.arguments.isEmpty then arguments else second.arguments
      else third.arguments) =
      if (if third.arguments.isEmpty then second.arguments else third.arguments).isEmpty then arguments
      else if third.arguments.isEmpty then second.arguments else third.arguments := by
    cases third.arguments <;> cases second.arguments <;> rfl
  have hproperties := Bindings.putAll_assoc first.properties third.properties h
  unfold Bindings.putAll at hproperties
  unfold overlay
  dsimp only
  rw [Option.or_assoc, Option.or_assoc, Option.or_assoc, joinNames_assoc, harguments, hproperties]

/-- **Completing is associative, and it loses nothing.** However a definition and its parent are put
together, what comes of them sets each property once: those of the parent in its order, and behind them
the new ones of the child in the child's order, each to the value of the child if the child sets it and to
that of the parent otherwise. The beans that have to exist first are those of the parent as they are, and
behind them those of the child that are not among them, each once and in the child's order. -/
theorem Built.overlay_lossless {parent child : DefinitionOf ρ} (hparent : Built parent)
    (hchild : Built child) (grandchild : DefinitionOf ρ) :
    (parent.overlay child).overlay grandchild = parent.overlay (child.overlay grandchild) ∧
      (Bindings.keys (parent.overlay child).properties).Nodup ∧
      Bindings.keys (parent.overlay child).properties =
        Bindings.keys parent.properties ++
          (Bindings.keys child.properties).filter (· ∉ Bindings.keys parent.properties) ∧
      (∀ name, (parent.overlay child).property? name =
        (child.property? name).or (parent.property? name)) ∧
      (parent.overlay child).dependsOn =
        parent.dependsOn ++ (child.dependsOn.filter (· ∉ parent.dependsOn)).eraseDups := by
  have hkeys : Bindings.keys (parent.overlay child).properties =
      joinNames (Bindings.keys parent.properties) (Bindings.keys child.properties) :=
    Bindings.keys_putAll parent.properties child.properties
  refine ⟨overlay_assoc parent grandchild hchild.wellFormed, ?_, ?_, fun name => ?_, ?_⟩
  · rw [hkeys]
    exact nodup_joinNames _ hparent.wellFormed
  · rw [hkeys, joinNames_eq, eraseDups_of_nodup (hchild.wellFormed.filter _)]
  · exact Bindings.lookup_putAll hchild.wellFormed name
  · exact joinNames_eq parent.dependsOn child.dependsOn

/-- A data source that names one of its prerequisites twice. -/
def sourceDefinition : Definition :=
  (({ className := some "DataSource", dependsOn := ["config", "config"] } : Definition).withProperty
    "url" (.literal (.text "jdbc:parent"))).withProperty "pool" (.literal (.int 4))

/-- A data source that is described by another one but for its place. -/
def replicaDefinition : Definition :=
  (({ parent := some "source", dependsOn := ["metrics", "config", "metrics"] } : Definition).withProperty
    "retries" (.literal (.int 3))).withProperty "url" (.literal (.text "jdbc:child"))

/-- The replica for tests, which is not made in advance. -/
def testReplicaDefinition : Definition :=
  ({ parent := some "replica", lazy := true } : Definition).withProperty "pool" (.literal (.int 1))

/-- The place is the child's, and it stands where the parent has it. -/
theorem overlay_lossless_replica :
    Built sourceDefinition ∧ Built replicaDefinition ∧
      (sourceDefinition.overlay replicaDefinition).overlay testReplicaDefinition =
        sourceDefinition.overlay (replicaDefinition.overlay testReplicaDefinition) ∧
      Bindings.keys (sourceDefinition.overlay replicaDefinition).properties =
        ["url", "pool", "retries"] ∧
      (sourceDefinition.overlay replicaDefinition).property? "url" =
        some (.literal (.text "jdbc:child")) ∧
      (sourceDefinition.overlay replicaDefinition).property? "pool" = some (.literal (.int 4)) ∧
      (sourceDefinition.overlay replicaDefinition).dependsOn = ["config", "config", "metrics"] := by
  have hsource : Built sourceDefinition :=
    (((Built.blank.withClass "DataSource").withPrerequisites _).withProperty _ _).withProperty _ _
  have hreplica : Built replicaDefinition :=
    (((Built.childOf "source").withPrerequisites _).withProperty _ _).withProperty _ _
  obtain ⟨hassoc, -, hkeys, hvalues, hprerequisites⟩ :=
    hsource.overlay_lossless hreplica testReplicaDefinition
  exact ⟨hsource, hreplica, hassoc, hkeys.trans (by decide), hvalues "url", hvalues "pool",
    hprerequisites.trans (by decide)⟩

end DefinitionOf

end Injector
