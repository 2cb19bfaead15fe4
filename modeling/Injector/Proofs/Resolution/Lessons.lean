import Injector.Proofs.Requests.Serving
import Injector.Proofs.Resolution.Places

/-!
# What resolution learns

While a bean's raw values are resolved, the types of arrays and typed texts are learnt, each at the place
of the raw value in the definition. Resolving a raw value where it stands (`Resolution.Stands`) teaches
nothing about a place but what the container finds for the type name that stands there
(`Resolution.inputs_of_teaching`): as a property of work, it is a matter of such lessons alone.
-/

namespace Injector

namespace Resolution

/-- The raw value stands at the steps, innermost first, in the definition whose values are resolved. -/
def Stands (r : Resolution) (steps : List Step) (raw : RawValue) : Prop :=
  r.definition.part? steps.reverse = some raw

theorem Stands.of_child {r : Resolution} {step : Step} {raw : RawValue}
    (h : r.definition.child? step = some raw) : r.Stands [step] raw := by
  unfold Stands
  rw [List.reverse_singleton, DefinitionOf.part?, h]
  rfl

theorem Stands.child {r : Resolution} {steps : List Step} {raw part : RawValue} {step : Step}
    (h : r.Stands steps raw) (hchild : raw.child? step = some part) : r.Stands (step :: steps) part := by
  unfold Stands
  rw [List.reverse_cons, DefinitionOf.part?_concat h]
  exact hchild

section

variable {K : (α : Type) → Work α → Prop} {r : Resolution} (hK : Work.Composable K)
  {classes : ClassTable} (hp : r.provider.Within K)
  (hnamed : ∀ name, r.provider.typeNamed name = Work.ofExcept (classes.typeNamed name))
  (hdynamic : ∀ steps : List Step, K Unit (modify fun world => world.learn r.owner steps .dynamic))
  (hteach : ∀ place part type, r.definition.part? place = some part → part.Finds classes type →
    K Unit (modify fun world => world.learn r.owner place (.type type)))

include hK hnamed hteach

/-- What is learnt for an array is what its type name stands for. -/
theorem elementType_of_teaching (path : ArgumentPath) {steps : List Step} {typeName : Option String}
    {memo : Option ValueType} {elements : List RawValue}
    (hstands : r.Stands steps (.array typeName memo elements)) :
    K ValueType (r.elementType path steps typeName memo) := by
  unfold elementType
  cases memo with
  | some type => exact hK.pure type
  | none =>
    have hend {type : ValueType} (hfinds : (RawValue.array typeName none elements).Finds classes type) :
        K ValueType (r.learn steps (.type type) >>= fun _ => pure type) :=
      hK.bind (hteach _ _ _ hstands hfinds) fun _ => hK.pure type
    cases typeName with
    | none => exact hend rfl
    | some name =>
      dsimp only
      rw [hnamed]
      cases hfound : classes.typeNamed name with
      | error failure => exact hK.fail _
      | ok type => exact hend hfound

/-- What is learnt for a typed text is what its target name stands for. -/
theorem targetOf_of_teaching {steps : List Step} {typed : TypedText}
    (hstands : r.Stands steps (.typed typed)) : K (Option ValueType) (r.targetOf steps typed) := by
  unfold targetOf
  split
  · exact hK.pure _
  · next name _ htarget =>
    rw [hnamed]
    cases hfound : classes.typeNamed name with
    | error failure => exact hK.fail _
    | ok type =>
      have hfinds : (RawValue.typed typed).Finds classes type := by
        unfold RawValue.Finds RawValue.typeName?
        dsimp only
        rw [htarget]
        exact hfound
      have hend : K (Option ValueType) (r.learn steps (.type type) >>= fun _ => pure (some type)) :=
        hK.bind (hteach _ _ _ hstands hfinds) fun _ => hK.pure _
      exact hend
  · exact hK.pure _

include hp hdynamic

/-- **Resolving a raw value where it stands learns what the type names of its parts stand for.** -/
theorem resolve_of_teaching (path : ArgumentPath) (steps : List Step) (raw : RawValue)
    (hstands : r.Stands steps raw) : K Value (r.resolve path steps raw) := by
  induction raw using RawValue.induction_parts generalizing path steps with
  | step raw ih =>
    have helements : ∀ {elements : List RawValue}, raw.parts = elements →
        (∀ offset element, elements[offset]? = some element →
          raw.child? (.element offset) = some element) →
        K (List Value) (r.resolveElements path steps 0 elements) := by
      rintro elements rfl hchild
      refine resolveElements_mem hK fun offset element helement path => ?_
      rw [Nat.zero_add]
      exact ih element (List.mem_of_getElem? helement) path _ (hstands.child (hchild _ _ helement))
    cases raw with
    | array typeName memo elements =>
      rw [resolve]
      exact hK.bind (elementType_of_teaching hK hnamed hteach path hstands) fun _ =>
        hK.bind (helements rfl fun _ _ => id) fun _ => hK.pure _
    | list elements | set elements =>
      rw [resolve]
      exact hK.bind (helements rfl fun _ _ => id) fun _ => hK.pure _
    | map entries =>
      rw [resolve]
      refine hK.bind (resolveEntries_mem hK fun offset key value hentry => ?_) fun _ => hK.pure _
      have hmem := List.mem_of_getElem? hentry
      rw [Nat.zero_add]
      exact ⟨fun path => ih key (RawValue.key_mem_parts hmem) path _
          (hstands.child (by simpa [RawValue.child?] using ⟨_, hentry⟩)),
        fun path => ih value (RawValue.value_mem_parts hmem) path _
          (hstands.child (by simpa [RawValue.child?] using ⟨_, hentry⟩))⟩
    | reference reference =>
      rw [resolve]
      exact resolveReference_mem hK hp.toGrants path fun _ _ => hp.evaluate _
    | nameReference name =>
      rw [resolve]
      exact resolveName_mem hK hp.toOffers path (hp.evaluate _)
    | inner identity definition =>
      rw [resolve]
      exact resolveNested_mem hK hp path _ definition
    | holder name _ definition =>
      rw [resolve]
      exact resolveNested_mem hK hp path name definition
    | dependency dependency =>
      rw [resolve]
      exact resolveDependency_mem hK hp.toGrants dependency
    | properties entries =>
      rw [resolve]
      exact hK.bind (resolveProperties_mem hK hdynamic path steps entries 0 .empty
        fun _ _ _ _ => hp.evaluate _) fun _ => hK.pure _
    | typed typed =>
      rw [resolve]
      refine hK.bind (hK.explain _ (evaluateTyped_mem hK hdynamic steps fun _ _ => hp.evaluate _))
        fun value => hK.explain _ (hK.bind (targetOf_of_teaching hK hnamed hteach hstands) fun target => ?_)
      split
      · exact hK.ofExcept _
      · exact hK.pure _
    | null =>
      rw [resolve]
      exact hK.pure _
    | literal value =>
      rw [resolve]
      exact resolveLiteral_mem hK fun _ _ => hp.evaluate _

/-- **Having the inputs of a bean learns what the type names in its definition stand for.** -/
theorem inputs_of_teaching (hwellFormed : r.definition.WellFormed) : K BeanInputs r.inputs := by
  refine hK.bind (resolveArguments_mem hK fun offset raw hraw path => ?_) fun _ =>
    hK.bind (resolveAll_mem hK fun name raw hmem path => ?_) fun _ => hK.pure _
  · rw [Nat.zero_add]
    exact resolve_of_teaching hK hp hnamed hdynamic hteach path _ raw (Stands.of_child hraw)
  · exact resolve_of_teaching hK hp hnamed hdynamic hteach path _ raw
      (Stands.of_child (Bindings.lookup_of_mem hwellFormed hmem))

end

end Resolution

end Injector
