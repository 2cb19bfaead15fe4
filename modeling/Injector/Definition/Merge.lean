import Injector.Definition.Basic

/-!
# Merging definitions

`overlay` completes a child definition by its parent, which is merged itself already. What the child
sets wins; the beans that have to exist first add up. The flags are always the child's, because
leaving one out says no.
-/

namespace Injector

/-- The names of the first list and, behind them, those of the second that are not there yet. -/
def joinNames (first second : List String) : List String :=
  second.foldl (fun names name => if names.contains name then names else names ++ [name]) first

theorem mem_joinNames (first second : List String) (name : String) :
    name ∈ joinNames first second ↔ name ∈ first ∨ name ∈ second := by
  unfold joinNames
  induction second generalizing first with
  | nil => simp
  | cons head rest ih =>
    rw [List.foldl_cons, ih]
    split <;> simp_all <;> grind

/-- Joining repeats no name that the first list does not repeat. -/
theorem nodup_joinNames {first : List String} (second : List String) (h : first.Nodup) :
    (joinNames first second).Nodup := by
  unfold joinNames
  induction second generalizing first with
  | nil => exact h
  | cons head rest ih =>
    rw [List.foldl_cons]
    apply ih
    split
    · exact h
    · rename_i hnew
      -- the name at the end is a new one
      exact List.nodup_append.2 ⟨h, by simp, by
        intro a ha b hb e
        simp only [List.mem_singleton] at hb
        exact hnew (by simpa using hb ▸ e ▸ ha)⟩

namespace DefinitionOf

variable {ρ : Type}

/-- The child completed by its parent. -/
def overlay (parent child : DefinitionOf ρ) : DefinitionOf ρ where
  className := child.className.or parent.className
  parent := none
  declaredScope := child.declaredScope.or parent.declaredScope
  dependsOn := joinNames parent.dependsOn child.dependsOn
  synthetic := child.synthetic
  primary := child.primary
  lazy := child.lazy
  resource := child.resource.or parent.resource
  arguments := if child.arguments.isEmpty then parent.arguments else child.arguments
  properties :=
    child.properties.foldl (fun properties property => Bindings.put property.1 property.2 properties)
      parent.properties

/-- A nested singleton takes the scope of the bean around it unless that is a singleton too. -/
def within (definition : DefinitionOf ρ) (containing : Option (DefinitionOf ρ)) : DefinitionOf ρ :=
  match containing with
  | some outer =>
    if !outer.isSingleton && definition.isSingleton then
      { definition with declaredScope := some outer.scope }
    else definition
  | none => definition

end DefinitionOf

end Injector
