import Injector.Container.Operations
import Injector.Proofs.Requests.Preservation
import Injector.Proofs.Resolution.Leaves

/-!
# What containers do for a request

Serving a request runs through most of the library: looking up, merging, resolving, creating, and
requests nested in all of these. What it does to the world comes down to a dozen elementary pieces.

Those that are done for every bean, whatever is created, are the `Housekeeping`. A property of work that
they have holds of the resolution of a raw value as soon as it holds of the evaluation of the texts and
of the nested definitions that the raw value is made of (`Resolution.resolve_mem`), and of the inputs of
a bean in the same way (`Resolution.inputs_mem`). Creating a bean is having its inputs and then calling
the constructor (`instantiate_cases`).

`Container` adds the pieces of creation. A property that passes through all of them holds of serving a
request at every depth (`Container.serve_within`), and of whatever else can be asked of a container.

The pieces are taken within a `Family` of containers, so that an index stands for one container with
its ancestors.
-/

namespace Injector

/-! ## Families of containers -/

/-- The containers there are, each with its ancestors, which are there too. An index belongs to one
container. -/
structure Family where
  Has : Chain → Prop
  ancestors_has : ∀ {registry : Registry} {ancestors : Chain},
    Has (registry :: ancestors) → Has ancestors
  index_unique : ∀ {registry registry' : Registry} {ancestors ancestors' : Chain},
    Has (registry :: ancestors) → Has (registry' :: ancestors') →
      registry.index = registry'.index → registry = registry' ∧ ancestors = ancestors'

/-- A container of a family. -/
structure Family.Member (family : Family) where
  registry : Registry
  ancestors : Chain
  has : family.Has (registry :: ancestors)

/-- The member with its ancestors. -/
def Family.Member.chain {family : Family} (member : family.Member) : Chain :=
  member.registry :: member.ancestors

theorem Family.Member.chain_has {family : Family} (member : family.Member) : family.Has member.chain :=
  member.has

/-- A chain of containers with different indices is a family: all of its ends belong to it. -/
def Family.ofChain (chain : Chain) (h : (chain.map Registry.index).Nodup) : Family where
  Has part := part <:+ chain
  ancestors_has hpart := (List.suffix_cons _ _).trans hpart
  index_unique := by
    intro registry registry' ancestors ancestors' hpart hpart' hindex
    have key : ∀ {part part' : Chain}, part <:+ chain → part' <:+ part →
        ∀ {first last : Registry} {rest rest' : Chain}, part = first :: rest →
          part' = last :: rest' → first.index = last.index → part' = part := by
      intro part part' hp hs first last rest rest' he he' hi
      subst he he'
      rcases List.suffix_cons_iff.mp hs with heq | hrest
      · exact heq
      · exfalso
        have hnodup : ((first :: rest).map Registry.index).Nodup :=
          h.sublist (hp.sublist.map _)
        rw [List.map_cons, List.nodup_cons] at hnodup
        refine hnodup.1 ?_
        rw [hi]
        exact List.mem_map_of_mem (hrest.subset List.mem_cons_self)
    rcases List.suffix_or_suffix_of_suffix hpart hpart' with hs | hs
    · have := key hpart' hs rfl rfl hindex.symm
      simpa using this
    · have := key hpart hs rfl rfl hindex
      simpa [eq_comm] using this

/-- The ends of a chain of a family belong to the family. -/
theorem Family.has_of_suffix (family : Family) {part : Chain} :
    ∀ {chain : Chain}, family.Has chain → part <:+ chain → family.Has part
  | [], hf, h => by
    rw [List.suffix_nil.mp h]
    exact hf
  | _ :: _, hf, h => by
    rcases List.suffix_cons_iff.mp h with rfl | hrest
    · exact hf
    · exact family.has_of_suffix (family.ancestors_has hf) hrest

/-- The containers of one chain of a family. -/
def Family.upTo (family : Family) (chain : Chain) (hf : family.Has chain) : Family where
  Has part := part <:+ chain
  ancestors_has h := (List.suffix_cons _ _).trans h
  index_unique h h' :=
    family.index_unique (family.has_of_suffix hf h) (family.has_of_suffix hf h')

/-- The family of a single container without ancestors. -/
def Family.lone (registry : Registry) : Family :=
  Family.ofChain [registry] (by simp)

/-- The member of the family of a single container. -/
def Registry.lone (registry : Registry) : (Family.lone registry).Member where
  registry := registry
  ancestors := []
  has := List.suffix_refl _

/-! ## The pieces -/

/-- A property that the pieces have which are done for every bean, apart from naming nested beans, noting
which bean depends on which, and noting what was learnt. -/
structure Minding (family : Family) (K : (α : Type) → Work α → Prop) : Prop
    extends Work.Composable K where
  merged : ∀ {registry : Registry} {ancestors : Chain},
    family.Has (registry :: ancestors) → ∀ name : String,
      K Definition (mergedDefinition (registry :: ancestors) name)
  mergedNested : ∀ {registry : Registry} {ancestors : Chain},
    family.Has (registry :: ancestors) →
      ∀ (name : String) (definition : Definition) (containing : Option Definition),
        K Definition (mergedNestedDefinition (registry :: ancestors) name definition containing)
  product : ∀ {registry : Registry} {ancestors : Chain},
    family.Has (registry :: ancestors) →
      ∀ (label : BeanLabel) (maker : Factory Value) (name : String) (processed : Bool),
        K Value (productOf registry label maker name processed)

/-- A property that the pieces have which are done for every bean, apart from naming nested beans and
noting which bean depends on which. -/
structure Tending (family : Family) (K : (α : Type) → Work α → Prop) : Prop
    extends Minding family K where
  learn : ∀ (owner : Owner) (steps : List Step) (lesson : Lesson),
    K Unit (modify fun world => world.learn owner steps lesson)

/-- A property that the pieces have which are done for every bean, apart from naming nested beans. -/
structure Upkeep (family : Family) (K : (α : Type) → Work α → Prop) : Prop
    extends Tending family K where
  noteDependent : ∀ {registry : Registry} {ancestors : Chain},
    family.Has (registry :: ancestors) → ∀ name dependent : String,
      K Unit (registry.noteDependent name dependent)
  noteContained : ∀ {registry : Registry} {ancestors : Chain},
    family.Has (registry :: ancestors) → ∀ inner outer : String,
      K Unit (registry.noteContained inner outer)

/-- A property that the pieces have which are done for every bean. -/
structure Housekeeping (family : Family) (K : (α : Type) → Work α → Prop) : Prop
    extends Upkeep family K where
  named : ∀ (index : Nat) (wanted given : String), K Unit (Work.note (.named index wanted given))

/-- A property that the pieces have of which all work of the containers of a family is made, apart from
naming nested beans. -/
structure Engine (family : Family) (K : (α : Type) → Work α → Prop) : Prop
    extends Work.Compositional K, Upkeep family K where
  served : ∀ (index : Nat) (name : String) (value : Value),
    K Unit (Work.note (.served index name value))
  construct : ∀ {registry : Registry} {ancestors : Chain},
    family.Has (registry :: ancestors) →
      ∀ (owner : Owner) (className : String) (constructor : Constructor) (inputs : BeanInputs),
        K Value (construct registry owner className constructor inputs)
  guarded : ∀ {registry : Registry} {ancestors : Chain},
    family.Has (registry :: ancestors) → ∀ (name : String) {work : Work Value},
      K Value work → K Value (guarded registry name work)
  singletonOr : ∀ {registry : Registry} {ancestors : Chain},
    family.Has (registry :: ancestors) → ∀ (name : String) {create : Work Value},
      K Value create → K Value (singletonOr registry name create)

/-- A property that the pieces have of which all work of the containers of a family is made. -/
structure Container (family : Family) (K : (α : Type) → Work α → Prop) : Prop
    extends Engine family K, Housekeeping family K

namespace Housekeeping

variable {family : Family} {K K' : (α : Type) → Work α → Prop} (hK : Housekeeping family K)

include hK

/-- Two such properties are one. -/
theorem and (hK' : Housekeeping family K') :
    Housekeeping family fun α work => K α work ∧ K' α work where
  toComposable := hK.toComposable.and hK'.toComposable
  named index wanted given := ⟨hK.named index wanted given, hK'.named index wanted given⟩
  learn owner steps lesson := ⟨hK.learn owner steps lesson, hK'.learn owner steps lesson⟩
  noteDependent hf name dependent :=
    ⟨hK.noteDependent hf name dependent, hK'.noteDependent hf name dependent⟩
  noteContained hf inner outer :=
    ⟨hK.noteContained hf inner outer, hK'.noteContained hf inner outer⟩
  merged hf name := ⟨hK.merged hf name, hK'.merged hf name⟩
  mergedNested hf name definition containing :=
    ⟨hK.mergedNested hf name definition containing, hK'.mergedNested hf name definition containing⟩
  product hf label maker name processed :=
    ⟨hK.product hf label maker name processed, hK'.product hf label maker name processed⟩

/-- What follows from such a property is one, if it passes through all work. -/
theorem mono (hK' : Work.Composable K')
    (h : ∀ {α : Type} {work : Work α}, K α work → K' α work) : Housekeeping family K' where
  toComposable := hK'
  named index wanted given := h (hK.named index wanted given)
  learn owner steps lesson := h (hK.learn owner steps lesson)
  noteDependent hf name dependent := h (hK.noteDependent hf name dependent)
  noteContained hf inner outer := h (hK.noteContained hf inner outer)
  merged hf name := h (hK.merged hf name)
  mergedNested hf name definition containing := h (hK.mergedNested hf name definition containing)
  product hf label maker name processed := h (hK.product hf label maker name processed)

/-- What is done for every bean of a family is done for those of one chain. -/
theorem upTo {chain : Chain} (hf : family.Has chain) : Housekeeping (family.upTo chain hf) K where
  toComposable := hK.toComposable
  named := hK.named
  learn := hK.learn
  noteDependent h := hK.noteDependent (family.has_of_suffix hf h)
  noteContained h := hK.noteContained (family.has_of_suffix hf h)
  merged h := hK.merged (family.has_of_suffix hf h)
  mergedNested h := hK.mergedNested (family.has_of_suffix hf h)
  product h := hK.product (family.has_of_suffix hf h)

end Housekeeping

/-- Everything that a handler does for the containers of a family has the property. -/
def Handler.Within (family : Family) (K : (α : Type) → Work α → Prop) (handler : Handler) : Prop :=
  (∀ chain name, family.Has chain → K Value (handler (.bean chain name))) ∧
    ∀ chain name definition, family.Has chain → K Value (handler (.creation chain name definition))

/-- Everything that a way of looking up does has the property. -/
structure Lookup.Within (K : (α : Type) → Work α → Prop) (lookup : Lookup) : Prop where
  contains : ∀ name, K Bool (lookup.contains name)
  bean : ∀ name, K Value (lookup.bean name)
  beanOfType : ∀ name type, K Value (lookup.beanOfType name type)
  beanByType : ∀ type, K Value (lookup.beanByType type)

/-- Having beans, products and types from a provider has the property. -/
structure Provider.Offers (K : (α : Type) → Work α → Prop) (provider : Provider) : Prop where
  lookup : provider.lookup.Within K
  parent : ∀ lookup, provider.parent = some lookup → lookup.Within K
  namedBean : ∀ type, K (String × Value) (provider.namedBean type)
  autowire : ∀ dependency requester converter,
    K (List String × Except Failure Value) (provider.autowire dependency requester converter)
  product : ∀ label maker name processed, K Value (provider.product label maker name processed)
  typeNamed : ∀ name, K ValueType (provider.typeNamed name)

/-- All that a provider does has the property, apart from evaluating texts and from naming, merging and
creating nested beans. -/
structure Provider.Grants (K : (α : Type) → Work α → Prop) (provider : Provider) : Prop
    extends provider.Offers K where
  noteDependent : ∀ name dependent, K Unit (provider.noteDependent name dependent)
  noteContained : ∀ inner outer, K Unit (provider.noteContained inner outer)

/-- Everything that a provider does has the property. -/
structure Provider.Within (K : (α : Type) → Work α → Prop) (provider : Provider) : Prop
    extends provider.Grants K where
  freeName : ∀ name, K String (provider.freeName name)
  merged : ∀ name definition containing, K Definition (provider.merged name definition containing)
  create : ∀ name definition, K Value (provider.create name definition)
  evaluate : ∀ text, K Value (provider.evaluate text)

/-! ## Resolution -/

namespace Resolution

/-- Makes a nested bean that has its name. -/
def buildNamed (r : Resolution) (given : String) (merged : Definition) : Work Value := do
  merged.dependsOn.forM fun prerequisite => do
    r.provider.noteDependent prerequisite given
    discard (r.provider.lookup.bean prerequisite)
  let made ← r.provider.create given merged
  match made.factory? with
  | some (label, maker) => r.provider.product label maker given (!merged.synthetic)
  | none => pure made

/-- A nested bean is named, noted to be contained, and made. -/
theorem build_eq (r : Resolution) (name : String) (merged : Definition) :
    r.build name merged =
      (if merged.isSingleton then r.provider.freeName name else pure name) >>= fun given =>
        r.provider.noteContained given r.beanName >>= fun _ => r.buildNamed given merged := by
  unfold build
  cases merged.isSingleton <;> rfl

/-- Has the bean that a reference of a container itself aims at, with the name that is noted for it. -/
def seek (r : Resolution) (reference : Reference) : Work (String × Value) := do
  let name ← reference.name.mapM r.evaluateName
  match reference.type, name with
  | some type, some name => do
    if ← r.provider.lookup.contains name then
      return (name, ← r.provider.lookup.beanOfType name type)
    else r.provider.namedBean type
  | some type, none => r.provider.namedBean type
  | none, some name => return (name, ← r.provider.lookup.bean name)
  | none, none => Work.fail (.noSuchBean reference.target)

/-- What a reference aims at is had, and then noted. -/
theorem lookUp_eq (r : Resolution) (reference : Reference) :
    r.lookUp reference = r.seek reference >>= fun (selected, value) =>
      r.provider.noteDependent selected r.beanName >>= fun _ => pure value := by
  unfold lookUp seek
  rw [bind_assoc]
  refine congrArg _ (funext fun name => ?_)
  obtain ⟨_, type, _⟩ := reference
  cases type <;> cases name <;> simp only [bind_assoc, pure_bind]
  -- of both a name and a type, the name is taken if it is known
  refine congrArg _ (funext fun known => ?_)
  cases known <;> simp

variable {K : (α : Type) → Work α → Prop} {r : Resolution}

section

variable (hK : Work.Composable K)
  (hlearn : ∀ (steps : List Step) (lesson : Lesson),
    K Unit (modify fun world => world.learn r.owner steps lesson))
  (hdynamic : ∀ steps : List Step, K Unit (modify fun world => world.learn r.owner steps .dynamic))
  (hp : r.provider.Offers K)

include hK

theorem evaluateName_mem {name : String} (htext : K Value (r.provider.evaluate name)) :
    K String (r.evaluateName name) :=
  hK.bind htext fun _ => hK.pure _

/-! ### Raw values one after the other -/

theorem resolveElements_mem {path : ArgumentPath} {steps : List Step} :
    ∀ {elements : List RawValue} {position : Nat},
      (∀ offset element, elements[offset]? = some element → ∀ path,
        K Value (r.resolve path (.element (position + offset) :: steps) element)) →
      K (List Value) (r.resolveElements path steps position elements)
  | [], _, _ => by
    rw [resolveElements]
    exact hK.pure _
  | element :: rest, position, h => by
    rw [resolveElements]
    refine hK.bind (h 0 element rfl _) fun _ =>
      hK.bind (resolveElements_mem fun offset other hother path => ?_) fun _ => hK.pure _
    rw [Nat.add_right_comm]
    exact h (offset + 1) other hother path

theorem resolveEntries_mem {path : ArgumentPath} {steps : List Step} :
    ∀ {entries : List (RawValue × RawValue)} {position : Nat},
      (∀ offset key value, entries[offset]? = some (key, value) →
        (∀ path, K Value (r.resolve path (.key (position + offset) :: steps) key)) ∧
          ∀ path, K Value (r.resolve path (.value (position + offset) :: steps) value)) →
      K (List (Value × Value)) (r.resolveEntries path steps position entries)
  | [], _, _ => by
    rw [resolveEntries]
    exact hK.pure _
  | (key, value) :: rest, position, h => by
    rw [resolveEntries]
    obtain ⟨hkey, hvalue⟩ := h 0 key value rfl
    refine hK.bind (hkey _) fun _ => hK.bind (hvalue _) fun _ =>
      hK.bind (resolveEntries_mem fun offset key' value' hentry => ?_) fun _ => hK.pure _
    rw [Nat.add_right_comm]
    exact h (offset + 1) key' value' hentry

theorem resolveArguments_mem :
    ∀ {arguments : List RawValue} {index : Nat},
      (∀ offset raw, arguments[offset]? = some raw → ∀ path,
        K Value (r.resolve path [.argument (index + offset)] raw)) →
      K (List Value) (r.resolveArguments index arguments)
  | [], _, _ => hK.pure _
  | argument :: rest, index, h => by
    rw [resolveArguments]
    refine hK.bind (h 0 argument rfl _) fun _ =>
      hK.bind (resolveArguments_mem fun offset other hother path => ?_) fun _ => hK.pure _
    rw [Nat.add_right_comm]
    exact h (offset + 1) other hother path

theorem resolveAll_mem :
    ∀ {properties : List (String × RawValue)} {table : Table Value},
      (∀ name raw, (name, raw) ∈ properties → ∀ path, K Value (r.resolve path [.property name] raw)) →
      K (Table Value) (r.resolveAll properties table)
  | [], _, _ => hK.pure _
  | (name, raw) :: rest, _, h => by
    rw [resolveAll]
    exact hK.bind (h name raw List.mem_cons_self _) fun _ =>
      resolveAll_mem fun name' raw' hmem => h name' raw' (List.mem_cons_of_mem _ hmem)

/-! ### Leaves -/

include hp

theorem seek_mem {reference : Reference}
    (htext : ∀ text ∈ reference.name.toList, K Value (r.provider.evaluate text)) :
    K (String × Value) (r.seek reference) := by
  obtain ⟨name?, type?, inParent⟩ := reference
  have hname : K (Option String) (name?.mapM r.evaluateName) := by
    cases name? with
    | none => exact hK.pure _
    | some name => exact hK.map _ (evaluateName_mem hK (htext name (List.mem_singleton_self _)))
  refine hK.bind hname fun name => ?_
  -- what is looked up depends on which of the two are given
  cases type? with
  | none =>
    cases name with
    | none => exact hK.fail _
    | some name => exact hK.bind (hp.lookup.bean name) fun _ => hK.pure _
  | some type =>
    cases name with
    | none => exact hp.namedBean type
    | some name =>
      refine hK.bind (hp.lookup.contains name) fun known => ?_
      split
      · exact hK.bind (hp.lookup.beanOfType name type) fun _ => hK.pure _
      · exact hp.namedBean type

omit hp in
theorem lookUp_mem (hp : r.provider.Grants K) {reference : Reference}
    (htext : ∀ text ∈ reference.name.toList, K Value (r.provider.evaluate text)) :
    K Value (r.lookUp reference) := by
  rw [lookUp_eq]
  exact hK.bind (seek_mem hK hp.toOffers htext) fun _ =>
    hK.bind (hp.noteDependent _ _) fun _ => hK.pure _

theorem lookUpInParent_mem {reference : Reference} (hparent : reference.inParent = true)
    (htext : ∀ text ∈ reference.texts, K Value (r.provider.evaluate text)) :
    K Value (r.lookUpInParent reference) := by
  unfold Reference.texts at htext
  rw [hparent, Bool.true_and] at htext
  unfold lookUpInParent
  split
  · exact hK.fail _
  · next parent hparent =>
    have hl := hp.parent parent hparent
    split
    · next htype =>
      rw [htype] at htext
      exact hK.bind (evaluateName_mem hK (htext _ (List.mem_singleton_self _))) fun _ => hl.bean _
    · next type htype =>
      rw [htype] at htext
      split
      · exact hl.beanByType _
      · next name hname =>
        rw [hname] at htext
        refine hK.bind (evaluateName_mem hK (htext name (List.mem_singleton_self _))) fun name =>
          hK.bind (hl.contains name) fun known => ?_
        split
        · exact hl.beanOfType _ _
        · exact hl.beanByType _

omit hp in
theorem resolveReference_mem (hp : r.provider.Grants K) (path : ArgumentPath) {reference : Reference}
    (htext : ∀ text ∈ reference.texts, K Value (r.provider.evaluate text)) :
    K Value (r.resolveReference path reference) := by
  unfold resolveReference
  refine hK.explain _ ?_
  split
  · next hparent =>
    exact hK.bind (lookUpInParent_mem hK hp.toOffers hparent htext) fun _ => hK.pure _
  · next hlocal =>
    unfold Reference.texts at htext
    rw [Bool.eq_false_iff.mpr hlocal, Bool.false_and] at htext
    exact hK.bind (lookUp_mem hK hp htext) fun _ => hK.pure _

theorem resolveName_mem (path : ArgumentPath) {name : String}
    (htext : K Value (r.provider.evaluate name)) : K Value (r.resolveName path name) := by
  refine hK.bind (evaluateName_mem hK htext) fun name =>
    hK.bind (hp.lookup.contains name) fun known => ?_
  split
  · exact hK.pure _
  · exact hK.fail _

omit hp in
theorem resolveDependency_mem (hp : r.provider.Grants K) (dependency : Dependency) :
    K Value (r.resolveDependency dependency) := by
  refine hK.bind (hp.autowire _ _ _) fun (names, outcome) => hK.bind (hK.ofExcept outcome) fun _ =>
    hK.bind (hK.forM fun name _ => hK.bind (hp.lookup.contains name) fun known => ?_)
      fun _ => hK.pure _
  split
  · exact hp.noteDependent _ _
  · exact hK.pure _

omit hp in
/-- Making a nested bean that has its name has the property if creating it has. -/
theorem buildNamed_mem (hp : r.provider.Grants K) {given : String} {merged : Definition}
    (hcreate : K Value (r.provider.create given merged)) : K Value (r.buildNamed given merged) := by
  refine hK.bind (hK.forM fun prerequisite _ => ?_) fun _ => hK.bind hcreate fun made => ?_
  · exact hK.bind (hp.noteDependent _ _) fun _ => hK.discard (hp.lookup.bean prerequisite)
  · split
    · exact hp.product _ _ _ _
    · exact hK.pure _

omit hp in
/-- Making a nested bean has the property if naming and creating it have. -/
theorem build_mem (hp : r.provider.Grants K) {name : String} {merged : Definition} (hname : K String (r.provider.freeName name))
    (hcreate : ∀ given, K Value (r.provider.create given merged)) : K Value (r.build name merged) := by
  rw [build_eq]
  refine hK.bind ?_ fun given => hK.bind (hp.noteContained _ _) fun _ =>
    buildNamed_mem hK hp (hcreate given)
  split
  · exact hname
  · exact hK.pure name

omit hp in
theorem resolveNested_mem (hp : r.provider.Within K) (path : ArgumentPath) (name : String)
    (definition : Definition) : K Value (r.resolveNested path name definition) :=
  hK.bind (hK.explain _ (hp.merged _ _ _)) fun _ =>
    hK.explain _ (hK.bind (build_mem hK hp.toGrants (hp.freeName name) fun _ => hp.create _ _) fun _ => hK.pure _)

omit hp in
theorem resolveLiteral_mem {value : Value}
    (htext : ∀ text ∈ value.texts, K Value (r.provider.evaluate text)) :
    K Value (r.resolveLiteral value) := by
  unfold resolveLiteral
  split
  · exact htext _ (List.mem_singleton_self _)
  · next items =>
    refine hK.bind (hK.mapM fun item hitem => ?_) fun _ => hK.pure _
    unfold evaluateItem
    split
    · next text => exact htext text (List.mem_filterMap.mpr ⟨.text text, hitem, rfl⟩)
    · exact hK.pure _
  · exact hK.pure _

omit hp in
include hdynamic in
theorem evaluateTyped_mem (steps : List Step) {typed : TypedText}
    (htext : ∀ text ∈ typed.text.toList, K Value (r.provider.evaluate text)) :
    K Value (r.evaluateTyped steps typed) := by
  unfold evaluateTyped
  split
  · exact hK.pure _
  · next text hsome =>
    rw [hsome] at htext
    refine hK.bind (htext text (List.mem_singleton_self _)) fun value => ?_
    dsimp only
    split
    · exact hK.bind (hdynamic _) fun _ => hK.pure _
    · exact hK.pure _

omit hp in
include hdynamic in
theorem propertyText_mem (path : ArgumentPath) (steps : List Step) {text : PropertyText}
    (htext : ∀ part ∈ text.texts, K Value (r.provider.evaluate part)) :
    K (Option String) (r.propertyText path steps text) := by
  unfold propertyText
  split
  · exact hK.pure _
  · exact hK.bind (hK.explain _ (evaluateTyped_mem hK hdynamic _ htext)) fun _ => hK.pure _

omit hp in
include hdynamic in
theorem resolveProperties_mem (path : ArgumentPath) (steps : List Step) :
    ∀ (entries : List (PropertyText × PropertyText)) (position : Nat) (table : Table String),
      (∀ entry ∈ entries, ∀ text ∈ entry.1.texts ++ entry.2.texts,
        K Value (r.provider.evaluate text)) →
      K (Table String) (r.resolveProperties path steps position entries table)
  | [], _, _, _ => hK.pure _
  | (key, value) :: rest, position, table, htext => by
    unfold resolveProperties
    have hfirst := htext (key, value) List.mem_cons_self
    refine hK.bind (propertyText_mem hK hdynamic _ _ fun text hmem =>
        hfirst text (List.mem_append_left _ hmem)) fun key =>
      hK.bind (propertyText_mem hK hdynamic _ _ fun text hmem =>
        hfirst text (List.mem_append_right _ hmem)) fun value => ?_
    split
    · exact resolveProperties_mem path steps rest _ _ fun entry hmem =>
        htext entry (List.mem_cons_of_mem _ hmem)
    · exact hK.fail _

include hlearn

theorem targetOf_mem (steps : List Step) (typed : TypedText) :
    K (Option ValueType) (r.targetOf steps typed) := by
  unfold targetOf
  split
  · exact hK.pure _
  · exact hK.bind (hp.typeNamed _) fun _ => hK.bind (hlearn _ _) fun _ => hK.pure _
  · exact hK.pure _

theorem resolveTyped_mem (path : ArgumentPath) (steps : List Step) {typed : TypedText}
    (htext : ∀ text ∈ typed.text.toList, K Value (r.provider.evaluate text)) :
    K Value (r.resolveTyped path steps typed) := by
  refine hK.bind (hK.explain _ (evaluateTyped_mem hK (fun steps => hlearn steps _) _ htext)) fun value =>
    hK.explain _ (hK.bind (targetOf_mem hK hlearn hp _ _) fun target => ?_)
  split
  · exact hK.ofExcept _
  · exact hK.pure _

theorem elementType_mem (path : ArgumentPath) (steps : List Step) (typeName : Option String)
    (memo : Option ValueType) : K ValueType (r.elementType path steps typeName memo) := by
  unfold elementType
  split
  · exact hK.pure _
  · have hend (type : ValueType) :
        K ValueType (r.learn steps (.type type) >>= fun _ => pure type) :=
      hK.bind (hlearn _ _) fun _ => hK.pure _
    cases typeName with
    | some name => exact hK.bind (hK.explain _ (hp.typeNamed _)) hend
    | none => exact hK.bind (hK.pure _) hend

/-- **Resolving a raw value has the property if resolving its leaves has it.** -/
theorem resolve_of_leaves (path : ArgumentPath) (steps : List Step) (raw : RawValue)
    (h : ∀ leaf ∈ raw.leaves, ∀ path steps, K Value (r.resolve path steps leaf)) :
    K Value (r.resolve path steps raw) := by
  induction raw using RawValue.induction_parts generalizing path steps with
  | step raw ih =>
    have hpart : ∀ part ∈ raw.parts, ∀ path steps, K Value (r.resolve path steps part) :=
      fun part hmem path steps => ih part hmem path steps fun leaf hleaf =>
        h leaf (RawValue.mem_leaves_of_mem_parts hmem hleaf)
    have helements : ∀ {elements : List RawValue}, raw.parts = elements →
        K (List Value) (r.resolveElements path steps 0 elements) := by
      rintro elements rfl
      exact resolveElements_mem hK fun _ part hmem path => hpart part (List.mem_of_getElem? hmem) path _
    cases raw with
    | array typeName memo elements =>
      rw [resolve]
      exact hK.bind (elementType_mem hK hlearn hp _ _ _ _) fun _ =>
        hK.bind (helements rfl) fun _ => hK.pure _
    | list elements | set elements =>
      rw [resolve]
      exact hK.bind (helements rfl) fun _ => hK.pure _
    | map entries =>
      rw [resolve]
      refine hK.bind (resolveEntries_mem hK fun _ key value hentry => ?_) fun _ => hK.pure _
      have hmem := List.mem_of_getElem? hentry
      exact ⟨fun path => hpart key (RawValue.key_mem_parts hmem) path _,
        fun path => hpart value (RawValue.value_mem_parts hmem) path _⟩
    | _ => exact h _ (List.mem_singleton_self _) path steps

/-- Resolving a leaf has the property if evaluating its texts has it, and resolving what it is if it
stands for another bean. -/
theorem resolveLeaf_mem (path : ArgumentPath) (steps : List Step) {leaf : RawValue}
    (hleaf : leaf.isLeaf = true)
    (htext : ∀ text ∈ leaf.leafTexts, K Value (r.provider.evaluate text))
    (hreference : ∀ reference, leaf = .reference reference →
      K Value (r.resolveReference path reference))
    (hdependency : ∀ dependency, leaf = .dependency dependency →
      K Value (r.resolveDependency dependency))
    (hnested : ∀ inner, leaf.nested? = some inner → K Value (r.resolveNested path inner.1 inner.2)) :
    K Value (r.resolve path steps leaf) := by
  cases leaf with
  | reference reference => rw [resolve]; exact hreference reference rfl
  | nameReference name =>
    rw [resolve]
    exact resolveName_mem hK hp _ (htext name (List.mem_singleton_self _))
  | inner identity definition => rw [resolve]; exact hnested (anonymousName identity, definition) rfl
  | holder name aliases definition => rw [resolve]; exact hnested (name, definition) rfl
  | dependency dependency => rw [resolve]; exact hdependency dependency rfl
  | properties entries =>
    rw [resolve]
    exact hK.bind (resolveProperties_mem hK (fun steps => hlearn steps _) _ _ _ _ _
      fun entry hentry text hmem =>
      htext text (List.mem_flatMap_of_mem hentry hmem)) fun _ => hK.pure _
  | typed typed => rw [resolve]; exact resolveTyped_mem hK hlearn hp _ _ htext
  | null => rw [resolve]; exact hK.pure _
  | literal value => rw [resolve]; exact resolveLiteral_mem hK htext
  | array | list | set | map => cases hleaf

omit hp in
/-- **Resolving a raw value has the property if evaluating its texts and resolving its nested
definitions has it.** -/
theorem resolve_mem (hp : r.provider.Grants K) (path : ArgumentPath) (steps : List Step) (raw : RawValue)
    (htext : ∀ text ∈ raw.texts, K Value (r.provider.evaluate text))
    (hnested : ∀ inner ∈ raw.nested, ∀ path, K Value (r.resolveNested path inner.1 inner.2)) :
    K Value (r.resolve path steps raw) := by
  refine resolve_of_leaves hK hlearn hp.toOffers path steps raw fun leaf hleaf path steps => ?_
  have htext' : ∀ text ∈ leaf.leafTexts, K Value (r.provider.evaluate text) :=
    fun text hmem => htext text (List.mem_flatMap_of_mem hleaf hmem)
  refine resolveLeaf_mem hK hlearn hp.toOffers path steps (RawValue.isLeaf_of_mem_leaves hleaf) htext'
    (fun reference heq => ?_) (fun dependency _ => resolveDependency_mem hK hp dependency)
    fun inner hinner => hnested inner (List.mem_filterMap.mpr ⟨leaf, hleaf, hinner⟩) path
  subst heq
  exact resolveReference_mem hK hp path htext'

end

/-! ### The inputs of a bean -/

/-- What the constructor of the bean is called with. -/
def inputs (r : Resolution) : Work BeanInputs := do
  let arguments ← r.resolveArguments 0 r.definition.arguments
  let properties ← r.resolveAll r.definition.properties .empty
  pure { beanName := r.beanName, arguments, properties }

/-- **Having the inputs of a bean has the property if resolving the leaves of its definition has it.** -/
theorem inputs_of_leaves (hK : Work.Composable K)
    (hlearn : ∀ (steps : List Step) (lesson : Lesson),
      K Unit (modify fun world => world.learn r.owner steps lesson))
    (hp : r.provider.Offers K)
    (h : ∀ leaf ∈ r.definition.leaves, ∀ path steps, K Value (r.resolve path steps leaf)) :
    K BeanInputs r.inputs := by
  have hraw : ∀ raw ∈ r.definition.raws, ∀ path steps, K Value (r.resolve path steps raw) :=
    fun raw hraw path steps => resolve_of_leaves hK hlearn hp path steps raw
      fun leaf hleaf => h leaf (List.mem_flatMap_of_mem hraw hleaf)
  refine hK.bind (resolveArguments_mem hK fun _ raw hmem path => ?_) fun _ =>
    hK.bind (resolveAll_mem hK fun name raw hmem path => ?_) fun _ => hK.pure _
  · exact hraw raw (List.mem_append_left _ (List.mem_of_getElem? hmem)) path _
  · exact hraw raw (List.mem_append_right _ (List.mem_map_of_mem hmem)) path _

/-- **Having the inputs of a bean has the property if evaluating the texts of its definition and
resolving what is nested in it has it.** -/
theorem inputs_mem (hK : Work.Composable K)
    (hlearn : ∀ (steps : List Step) (lesson : Lesson),
      K Unit (modify fun world => world.learn r.owner steps lesson))
    (hp : r.provider.Grants K)
    (htext : ∀ text ∈ r.definition.texts, K Value (r.provider.evaluate text))
    (hnested : ∀ inner ∈ r.definition.nested,
      ∀ path, K Value (r.resolveNested path inner.1 inner.2)) :
    K BeanInputs r.inputs := by
  refine inputs_of_leaves hK hlearn hp.toOffers fun leaf hleaf path steps => ?_
  obtain ⟨raw, hraw, hleaf'⟩ := List.mem_flatMap.mp hleaf
  have hself := RawValue.leaves_of_isLeaf (RawValue.isLeaf_of_mem_leaves hleaf')
  refine resolve_mem hK hlearn hp path steps leaf (fun text hmem => ?_) fun inner hinner => ?_
  · rw [RawValue.texts_of_leaf hself] at hmem
    exact htext text (List.mem_flatMap_of_mem hraw (List.mem_flatMap_of_mem hleaf' hmem))
  · unfold RawValue.nested at hinner
    rw [hself] at hinner
    obtain ⟨same, hsame, hsome⟩ := List.mem_filterMap.mp hinner
    obtain rfl := List.mem_singleton.mp hsame
    exact hnested inner (DefinitionOf.mem_nested_iff.mpr ⟨_, hleaf, hsome⟩)

end Resolution

/-! ## Housekeeping -/

/-- Has one of the beans that have to exist before another one. -/
def realizePrerequisite (handler : Handler) (registry : Registry) (ancestors : Chain) (name : String)
    (merged : Definition) (prerequisite : String) : Work Unit := do
  if (← Work.state registry).isDependent name prerequisite then
    Work.fail (.creation merged.resource (some name) (.circularDependsOn name prerequisite) none)
  else
    registry.noteDependent prerequisite name
    Work.explain
      (fun cause =>
        .creation merged.resource (some name) (.missingPrerequisite name prerequisite) (some cause))
      (discard (handler (.bean (registry :: ancestors) prerequisite)))

theorem realizePrerequisites_eq (handler : Handler) (registry : Registry) (ancestors : Chain)
    (name : String) (merged : Definition) :
    realizePrerequisites handler registry ancestors name merged =
      merged.dependsOn.forM (realizePrerequisite handler registry ancestors name merged) :=
  rfl

/-! ### Looking for candidates -/

section

variable {K : (α : Type) → Work α → Prop} (hK : Work.Composable K) {registry : Registry}
  {ancestors : Chain}
  (hmerged : ∀ name : String, K Definition (mergedDefinition (registry :: ancestors) name))

include hK hmerged

theorem Work.Composable.matchesType (type : ValueType) (name : String) :
    K Bool (matchesType registry ancestors type name) := by
  unfold Injector.matchesType
  split
  · exact hK.pure _
  · refine hK.bind (hK.state registry) fun state => ?_
    split
    · exact hK.pure _
    · refine hK.bind (hK.attempt (hmerged name)) fun merged => ?_
      split <;> exact hK.pure _

theorem Work.Composable.namesForType (type : ValueType) :
    K (List String) (namesForType registry ancestors type) :=
  hK.bind (hK.state registry) fun _ => hK.filterM (hK.matchesType hmerged type) _

/-- Looking for candidates comes down to looking at merged definitions. -/
theorem Work.Composable.candidatesFor (dependency : Dependency) (requester : String) :
    K (List String) (candidatesFor registry ancestors dependency requester) := by
  refine hK.bind (hK.namesForType hmerged _) fun names => ?_
  dsimp only
  split
  · exact hK.pure _
  · exact hK.bind (hK.state registry) fun _ => hK.pure _

end

namespace Minding

variable {family : Family} {K : (α : Type) → Work α → Prop} (hK : Minding family K)
  {handler : Handler} {registry : Registry} {ancestors : Chain}

include hK

theorem namesForType (hf : family.Has (registry :: ancestors)) (type : ValueType) :
    K (List String) (namesForType registry ancestors type) :=
  hK.toComposable.namesForType (hK.merged hf) type

theorem chooseOne (type : ValueType) (candidates : List String) (placeName : Option String) :
    K String (chooseOne registry type candidates placeName) := by
  unfold Injector.chooseOne
  split
  · exact hK.pure _
  · refine hK.bind (hK.state registry) fun state => ?_
    split
    · exact hK.pure _
    · exact hK.fail _

theorem candidatesFor (hf : family.Has (registry :: ancestors)) (dependency : Dependency)
    (requester : String) :
    K (List String) (candidatesFor registry ancestors dependency requester) :=
  hK.toComposable.candidatesFor (hK.merged hf) dependency requester

/-! ### Having beans by type -/

section

variable {fetch : Fetch} (hfetch : ∀ chain name, family.Has chain → K Value (fetch chain name))

include hfetch

theorem fetchOfType {chain : Chain} (hf : family.Has chain) (name : String) (type : ValueType) :
    K Value (fetchOfType fetch chain name type) := by
  refine hK.bind (hfetch chain name hf) fun value => ?_
  split
  · exact hK.pure _
  · exact hK.fail _

theorem fetchNamed (type : ValueType) :
    ∀ chain : Chain, family.Has chain → K (String × Value) (fetchNamed fetch chain type)
  | [], _ => hK.fail _
  | registry :: ancestors, hf => by
    unfold Injector.fetchNamed
    refine hK.bind (hK.namesForType hf type) fun candidates => ?_
    split
    · exact fetchNamed type ancestors (family.ancestors_has hf)
    · exact hK.bind (hK.chooseOne type candidates none) fun chosen =>
        hK.bind (hfetch _ chosen hf) fun _ => hK.pure _

theorem fetchAll {chain : Chain} (hf : family.Has chain) :
    ∀ names : List String,
      K (List (String × Value) × Except Failure Unit) (fetchAll fetch chain names)
  | [] => hK.pure _
  | name :: rest => by
    unfold Injector.fetchAll
    refine hK.bind (hK.attempt (hfetch chain name hf)) fun result => ?_
    cases result with
    | error failure => exact hK.pure _
    | ok value => exact hK.bind (fetchAll hf rest) fun _ => hK.pure _

theorem inject (hf : family.Has (registry :: ancestors)) (dependency : Dependency)
    (converter : Converter) (candidates : List String) :
    K (List String × Except Failure Value)
      (inject fetch registry ancestors dependency converter candidates) := by
  unfold Injector.inject
  dsimp only
  split
  · refine hK.bind (hK.attempt (hK.chooseOne _ _ _)) fun chosen => ?_
    cases chosen with
    | error failure => exact hK.pure _
    | ok chosen =>
      refine hK.bind (hK.attempt (hfetch _ chosen hf)) fun result => ?_
      cases result <;> exact hK.pure _
  · exact hK.bind (hK.fetchAll hfetch hf candidates) fun _ => hK.pure _
  · exact hK.bind (hK.fetchAll hfetch hf candidates) fun _ => hK.pure _

theorem autowire (dependency : Dependency) (requester : String) (converter : Converter) :
    ∀ chain : Chain, family.Has chain →
      K (List String × Except Failure Value) (autowire fetch chain dependency requester converter)
  | [], _ => hK.pure _
  | registry :: ancestors, hf => by
    unfold Injector.autowire
    refine hK.bind (hK.candidatesFor hf dependency requester) fun candidates => ?_
    split
    · exact autowire dependency requester converter ancestors (family.ancestors_has hf)
    · exact hK.inject hfetch hf dependency converter candidates

end

/-! ### Providing for resolution -/

theorem exposed (hf : family.Has (registry :: ancestors)) (value : Value) (written name : String)
    (processed : Bool) : K Value (exposed registry value written name processed) := by
  unfold Injector.exposed
  split
  · split
    · exact hK.pure _
    · exact hK.fail _
  · split
    · exact hK.product hf _ _ _ _
    · exact hK.pure _

section

variable (hbean : ∀ chain name, family.Has chain → K Value (handler (.bean chain name)))

include hbean

theorem lookup_within {chain : Chain} (hf : family.Has chain) :
    (Chain.lookup chain handler).Within K where
  contains _ := hK.bind hK.get fun _ => hK.pure _
  bean name := hbean chain name hf
  beanOfType name type := hK.fetchOfType hbean hf name type
  beanByType type := hK.bind (hK.fetchNamed hbean type chain hf) fun _ => hK.pure _

theorem provider_offers (hf : family.Has (registry :: ancestors)) (depth : Nat) :
    (registry.provider ancestors handler depth).Offers K where
  lookup := hK.lookup_within hbean hf
  parent := by
    intro lookup hl
    unfold Registry.provider at hl
    dsimp only at hl
    split at hl
    · cases hl
    · cases hl
      exact hK.lookup_within hbean (family.ancestors_has hf)
  namedBean type := hK.fetchNamed hbean type _ hf
  autowire dependency requester converter :=
    hK.autowire hbean dependency requester converter _ hf
  product := hK.product hf
  typeNamed _ := hK.ofExcept _

/-- Having a prerequisite has the property if noting it has. -/
theorem realizePrerequisite (hf : family.Has (registry :: ancestors))
    (hnote : ∀ name dependent, K Unit (registry.noteDependent name dependent)) (name : String)
    (merged : Definition) (prerequisite : String) :
    K Unit (realizePrerequisite handler registry ancestors name merged prerequisite) := by
  refine hK.bind (hK.state registry) fun state => ?_
  split
  · exact hK.fail _
  · exact hK.bind (hnote _ _) fun _ => hK.explain _ (hK.discard (hbean _ prerequisite hf))

theorem fetchAbove (hf : family.Has ancestors) (written name : String) :
    K Value (fetchAbove handler ancestors written name) := by
  unfold Injector.fetchAbove
  split
  · exact hK.fail _
  · exact hbean _ _ hf

end

end Minding

namespace Upkeep

variable {family : Family} {K : (α : Type) → Work α → Prop} (hK : Upkeep family K)
  {handler : Handler} {registry : Registry} {ancestors : Chain}
  (hbean : ∀ chain name, family.Has chain → K Value (handler (.bean chain name)))

include hK hbean

theorem provider_grants (hf : family.Has (registry :: ancestors)) (depth : Nat) :
    (registry.provider ancestors handler depth).Grants K where
  toOffers := hK.provider_offers hbean hf depth
  noteDependent := hK.noteDependent hf
  noteContained := hK.noteContained hf

theorem realizePrerequisite (hf : family.Has (registry :: ancestors)) (name : String)
    (merged : Definition) (prerequisite : String) :
    K Unit (realizePrerequisite handler registry ancestors name merged prerequisite) :=
  hK.toMinding.realizePrerequisite hbean hf (hK.noteDependent hf) name merged prerequisite

theorem realizePrerequisites (hf : family.Has (registry :: ancestors)) (name : String)
    (merged : Definition) :
    K Unit (realizePrerequisites handler registry ancestors name merged) :=
  hK.forM fun prerequisite _ => hK.realizePrerequisite hbean hf name merged prerequisite

end Upkeep

namespace Housekeeping

variable {family : Family} {K : (α : Type) → Work α → Prop} (hK : Housekeeping family K)
  {handler : Handler} {registry : Registry} {ancestors : Chain}

include hK

theorem freeName (name : String) : K String (registry.freeName name) :=
  hK.bind (hK.state registry) fun _ => hK.bind (hK.named _ _ _) fun _ => hK.pure _

/-- A container provides everything for a property that handling requests has and being stopped. -/
theorem provider_within (hstop : Work.Compositional K) (hh : handler.Within family K)
    (hf : family.Has (registry :: ancestors)) (depth : Nat) :
    (registry.provider ancestors handler depth).Within K where
  toGrants := hK.provider_grants hh.1 hf depth
  freeName := hK.freeName
  merged name definition containing := hK.mergedNested hf name definition (some containing)
  create name definition := hh.2 _ name definition hf
  evaluate _ := hstop.ofStop _

end Housekeeping

/-! ## Creating -/

/-- What the values of a bean are resolved with when it is created. -/
def Registry.resolution (registry : Registry) (ancestors : Chain) (handler : Handler) (depth : Nat)
    (name : String) (owner : Owner) (definition : Definition) : Resolution where
  provider := registry.provider ancestors handler depth
  beanName := name
  definition
  converter := registry.converter
  owner

/-- **Creating a bean fails for its class, or has the inputs of the bean and calls the constructor with
them.** -/
theorem instantiate_cases (handler : Handler) (depth : Nat) (registry : Registry) (ancestors : Chain)
    (name : String) (owner : Owner) (definition : Definition) :
    (∃ failure, instantiate handler depth registry ancestors name owner definition =
        Work.fail failure) ∨
      ∃ className constructor reword, definition.className = some className ∧
        registry.classes.constructor? className = some constructor ∧
        instantiate handler depth registry ancestors name owner definition =
          (registry.resolution ancestors handler depth name owner definition).inputs >>= fun inputs =>
            Work.explain reword (construct registry owner className constructor inputs) := by
  unfold instantiate
  cases hclass : definition.className with
  | none => exact Or.inl ⟨_, rfl⟩
  | some className =>
    dsimp only
    cases hconstructor : registry.classes.constructor? className with
    | none => exact Or.inl ⟨_, rfl⟩
    | some constructor =>
      refine Or.inr ⟨className, constructor,
        fun cause => .creation definition.resource (some name) .construction (some cause), rfl,
        hconstructor, ?_⟩
      unfold Resolution.inputs Registry.resolution
      dsimp only
      rw [bind_assoc]
      refine congrArg _ (funext fun arguments => ?_)
      rw [bind_assoc]
      rfl

variable {family : Family} {K : (α : Type) → Work α → Prop}

/-- Making whatever nested bean for whatever bean of a container has the property. -/
def Handler.Nesting (family : Family) (K : (α : Type) → Work α → Prop) (handler : Handler) : Prop :=
  ∀ (member : family.Member) (depth : Nat) (r : Resolution),
    r.provider = member.registry.provider member.ancestors handler depth →
      ∀ (path : ArgumentPath) (inner : String × Definition), K Value (r.resolveNested path inner.1 inner.2)

/-- Having the inputs of a bean has a property that handling requests, making nested beans and being
stopped have. -/
theorem Upkeep.inputs_of_nesting {handler : Handler} (hK : Upkeep family K)
    (hstop : Work.Compositional K)
    (hbean : ∀ chain name, family.Has chain → K Value (handler (.bean chain name)))
    (hnesting : handler.Nesting family K) (member : family.Member) (depth : Nat) (name : String)
    (owner : Owner) (definition : Definition) :
    K BeanInputs (member.registry.resolution member.ancestors handler depth name owner
      definition).inputs :=
  Resolution.inputs_mem hK.toComposable (hK.learn owner) (hK.provider_grants hbean member.has depth)
    (fun _ _ => hstop.ofStop _) fun inner _ path => hnesting member depth _ rfl path inner

/-- Making nested beans has a property that naming them, handling requests and being stopped have. -/
theorem Housekeeping.nesting {handler : Handler} (hK : Housekeeping family K)
    (hstop : Work.Compositional K) (hh : handler.Within family K) : handler.Nesting family K :=
  fun member depth _ hr path inner =>
    Resolution.resolveNested_mem hK.toComposable
      (hr ▸ hK.provider_within hstop hh member.has depth) path inner.1 inner.2

/-- Having the inputs of a bean has a property that handling requests has and being stopped. -/
theorem Housekeeping.inputs_mem {handler : Handler} (hK : Housekeeping family K)
    (hstop : Work.Compositional K) (hh : handler.Within family K) (member : family.Member)
    (depth : Nat) (name : String) (owner : Owner) (definition : Definition) :
    K BeanInputs (member.registry.resolution member.ancestors handler depth name owner
      definition).inputs :=
  hK.inputs_of_nesting hstop hh.1 (hK.nesting hstop hh) member depth name owner definition

/-! ## Containers -/

namespace Engine

variable {family : Family} {K : (α : Type) → Work α → Prop} (hK : Engine family K)
  {handler : Handler} (hh : handler.Within family K) (hnesting : handler.Nesting family K)
  {registry : Registry} {ancestors : Chain}

include hK hh hnesting

theorem instantiate (hf : family.Has (registry :: ancestors)) (depth : Nat) (name : String)
    (owner : Owner) (definition : Definition) :
    K Value (instantiate handler depth registry ancestors name owner definition) := by
  rcases instantiate_cases handler depth registry ancestors name owner definition with
    ⟨failure, heq⟩ | ⟨className, constructor, reword, -, -, heq⟩
  · rw [heq]
    exact hK.fail failure
  · rw [heq]
    exact hK.bind (hK.inputs_of_nesting hK.toCompositional hh.1 hnesting ⟨registry, ancestors, hf⟩ depth
      name owner definition) fun _ =>
      hK.explain _ (hK.construct hf owner className constructor _)

theorem instanceOf (hf : family.Has (registry :: ancestors)) (depth : Nat) (name : String)
    (merged : Definition) :
    K Value (instanceOf handler depth registry ancestors name merged) := by
  have hcreate := hK.guarded hf name (hK.instantiate hh hnesting hf depth name (.merged registry.index name) merged)
  unfold Injector.instanceOf
  dsimp only
  split
  · exact hK.singletonOr hf name hcreate
  · exact hcreate

theorem fetchBean (hf : family.Has (registry :: ancestors)) (depth : Nat) (written : String) :
    K Value (fetchBean handler depth registry ancestors written) := by
  unfold Injector.fetchBean
  refine hK.bind (hK.state registry) fun state => ?_
  dsimp only
  split
  · exact hK.exposed hf _ _ _ _
  · split
    · exact hK.bind (hK.merged hf _) fun _ =>
        hK.bind (hK.realizePrerequisites hh.1 hf _ _) fun _ =>
        hK.bind (hK.instanceOf hh hnesting hf depth _ _) fun _ => hK.exposed hf _ _ _ _
    · exact hK.fetchAbove hh.1 (family.ancestors_has hf) _ _

/-- One level of serving has the property if everything nested in it has it. -/
theorem step_within (depth : Nat) : (step handler depth).Within family K := by
  refine ⟨fun chain name hf => ?_, fun chain name definition hf => ?_⟩
  · cases chain with
    | nil => exact hK.fail _
    | cons registry ancestors =>
      exact hK.bind (hK.fetchBean hh hnesting hf depth name) fun _ =>
        hK.bind (hK.served _ _ _) fun _ => hK.pure _
  · cases chain with
    | nil => exact hK.fail _
    | cons registry ancestors => exact hK.instantiate hh hnesting hf depth name .nothing definition

omit hh hnesting in
/-- **Serving has the property at every depth if making nested beans has it.** -/
theorem serve_within
    (hnesting : ∀ handler : Handler, handler.Within family K → handler.Nesting family K) :
    ∀ depth : Nat, (serve depth).Within family K
  | 0 => ⟨fun _ _ _ => hK.tooDeep, fun _ _ _ _ => hK.tooDeep⟩
  | depth + 1 =>
    hK.step_within (serve_within hnesting depth) (hnesting _ (serve_within hnesting depth)) depth

end Engine

/-- **Serving has the property at every depth.** -/
theorem Container.serve_within {family : Family} {K : (α : Type) → Work α → Prop}
    (hK : Container family K) (depth : Nat) : (serve depth).Within family K :=
  hK.toEngine.serve_within (fun _ hh => hK.nesting hK.toCompositional hh) depth

/-! ## Requests that are served -/

section

variable {registry : Registry} {ancestors : Chain} {written name : String} {world after : World}
  {value : Value} {depth : Nat}

/-- A request that is served is noted, and the containers are as they were left. -/
theorem bean_eq_ok (h : Chain.bean depth (registry :: ancestors) name world = (.ok value, after)) :
    ∃ lower between, depth = lower + 1 ∧
      fetchBean (serve lower) lower registry ancestors name world = (.ok value, between) ∧
      after = between.noting (.served registry.index name value) := by
  cases depth with
  | zero => cases h
  | succ lower =>
    obtain ⟨served, between, hfetch, hnote⟩ := Work.bind_eq_ok h
    cases hnote
    exact ⟨lower, between, rfl, hfetch, rfl⟩

/-- A bean of which an instance is kept is exposed of that instance. -/
theorem fetchBean_of_kept {shared : Value} (handler : Handler) (depth : Nat) (ancestors : Chain)
    (hname : (world.state registry.index).canonicalName (plainName written) = name)
    (hkept : (world.state registry.index).singletons.find? name = some shared) :
    ∃ processed, fetchBean handler depth registry ancestors written world =
      exposed registry shared written name processed world := by
  unfold Injector.fetchBean
  rw [Work.state_bind_apply, hname]
  dsimp only
  rw [hkept]
  exact ⟨_, rfl⟩

/-- Having a bean that is defined and that no instance is kept of goes through all stages. -/
theorem fetchBean_eq_ok {handler : Handler}
    (hname : (world.state registry.index).canonicalName (plainName written) = name)
    (hnone : (world.state registry.index).singletons.find? name = none)
    (hdefined : (world.state registry.index).definitions.contains name = true)
    (h : fetchBean handler depth registry ancestors written world = (.ok value, after)) :
    ∃ merged first second instance_ third,
      mergedDefinition (registry :: ancestors) name world = (.ok merged, first) ∧
      realizePrerequisites handler registry ancestors name merged first = (.ok (), second) ∧
      instanceOf handler depth registry ancestors name merged second = (.ok instance_, third) ∧
      exposed registry instance_ written name (!merged.synthetic) third = (.ok value, after) := by
  unfold Injector.fetchBean at h
  rw [Work.state_bind_apply, hname] at h
  dsimp only at h
  rw [hnone, if_pos hdefined] at h
  obtain ⟨merged, first, hmerged, h⟩ := Work.bind_eq_ok h
  obtain ⟨⟨⟩, second, hrealized, h⟩ := Work.bind_eq_ok h
  obtain ⟨instance_, third, hinstance, hexposed⟩ := Work.bind_eq_ok h
  exact ⟨merged, first, second, instance_, third, hmerged, hrealized, hinstance, hexposed⟩

end

end Injector
