import Injector.Container.State
import Injector.Settings.Basic

/-!
# Registration

Taking definitions, aliases and ready-made singletons into a container. Each function gives the next
state or says what is wrong; a refused registration has no next state.

Definitions, aliases and singletons share one space of names, but each registration looks only at
some of them: a definition takes the place of an alias of its name, an alias may not have the name of
a definition, and a singleton is only compared with singletons.
-/

namespace Injector

namespace State

/-- Drops what was derived from a definition: its singleton, its product, and all merged definitions,
since any of them may have been completed by it. -/
def forget (state : State) (name : String) : State :=
  { state with
    merged := .empty
    singletons := state.singletons.erase name
    products := state.products.erase name }

/-- Takes a definition, instead of an earlier one of that name if overriding is allowed. -/
def define (settings : Settings) (name : String) (definition : Definition) (state : State) :
    Except Failure State :=
  if name.isEmpty then .error (.invalidDefinition definition.resource none .emptyName)
  else if state.definitions.contains name && !settings.allowOverriding then
    .error (.invalidDefinition definition.resource (some name) (.nameTaken name))
  else
    .ok (State.forget
      { state with
        definitions := state.definitions.insert name definition
        aliases := state.aliases.erase name } name)

theorem define_eq_ok_iff {settings : Settings} {name : String} {definition : Definition}
    {state after : State} :
    define settings name definition state = .ok after ↔
      name.isEmpty = false ∧ (state.definitions.contains name = true → settings.allowOverriding = true) ∧
        after = State.forget
          { state with
            definitions := state.definitions.insert name definition
            aliases := state.aliases.erase name } name := by
  unfold define
  cases name.isEmpty <;> cases state.definitions.contains name <;>
    cases settings.allowOverriding <;> simp [eq_comm]

/-- Takes a definition out. -/
def remove (name : String) (state : State) : Except Failure State :=
  if state.definitions.contains name then
    .ok (State.forget { state with definitions := state.definitions.erase name } name)
  else .error (.noSuchBean name)

theorem remove_eq_ok_iff {name : String} {state after : State} :
    remove name state = .ok after ↔
      state.definitions.contains name = true ∧
        after = State.forget { state with definitions := state.definitions.erase name } name := by
  unfold remove
  by_cases h : state.definitions.contains name = true
  · rw [if_pos h]
    constructor
    · intro he; exact ⟨h, (Except.ok.inj he).symm⟩
    · rintro ⟨-, rfl⟩; rfl
  · rw [if_neg h]
    constructor
    · intro he; cases he
    · rintro ⟨hc, -⟩; exact absurd hc h

/-- Takes an alias for a name. An alias for itself is dropped instead. -/
def addAlias (settings : Settings) (name shorthand : String) (state : State) :
    Except Failure State :=
  let refuse := fun fault => Except.error (.invalidDefinition none (some name) fault)
  if shorthand = name then .ok { state with aliases := state.aliases.erase shorthand }
  else if state.definitions.contains shorthand then refuse (.aliasIsDefinition shorthand name)
  else if state.canonicalName name = shorthand then refuse (.aliasCircular shorthand name)
  else
    let added := { state with aliases := state.aliases.insert shorthand name }
    match state.aliases.find? shorthand with
    | none => .ok added
    | some existing =>
      if existing = name then .ok state
      else if settings.allowOverriding then .ok added
      else refuse (.aliasBound shorthand name existing)

/-- An alias that is taken was the name itself and is dropped, was there already, or is bound now. -/
theorem addAlias_eq_ok {settings : Settings} {name shorthand : String} {state after : State}
    (h : addAlias settings name shorthand state = .ok after) :
    (shorthand = name ∧ after = { state with aliases := state.aliases.erase shorthand }) ∨
      (state.aliases.find? shorthand = some name ∧ after = state) ∨
      (shorthand ≠ name ∧ state.definitions.contains shorthand = false ∧
        state.canonicalName name ≠ shorthand ∧
        (state.aliases.contains shorthand = true → settings.allowOverriding = true) ∧
        after = { state with aliases := state.aliases.insert shorthand name }) := by
  unfold addAlias at h
  dsimp only at h
  by_cases hself : shorthand = name
  · rw [if_pos hself] at h
    exact Or.inl ⟨hself, (Except.ok.inj h).symm⟩
  rw [if_neg hself] at h
  by_cases hdefined : state.definitions.contains shorthand = true
  · rw [if_pos hdefined] at h
    cases h
  rw [if_neg hdefined] at h
  by_cases hend : state.canonicalName name = shorthand
  · rw [if_pos hend] at h
    cases h
  rw [if_neg hend] at h
  have hundefined : state.definitions.contains shorthand = false := by simpa using hdefined
  cases hbound : state.aliases.find? shorthand with
  | none =>
    rw [hbound] at h
    refine Or.inr (Or.inr ⟨hself, hundefined, hend, fun hc => ?_, (Except.ok.inj h).symm⟩)
    simp [Table.contains, hbound] at hc
  | some existing =>
    rw [hbound] at h
    dsimp only at h
    split at h
    · next hsame => exact Or.inr (Or.inl ⟨congrArg some hsame, (Except.ok.inj h).symm⟩)
    · split at h
      · next hallowed =>
        exact Or.inr (Or.inr ⟨hself, hundefined, hend, fun _ => hallowed, (Except.ok.inj h).symm⟩)
      · cases h

/-- An alias that is bound already is bound anew if overriding is allowed. -/
theorem addAlias_of_override {settings : Settings} {name shorthand existing : String} {state : State}
    (hself : shorthand ≠ name) (hdefined : state.definitions.contains shorthand = false)
    (hend : state.canonicalName name ≠ shorthand)
    (hbound : state.aliases.find? shorthand = some existing) (hother : existing ≠ name)
    (hallowed : settings.allowOverriding = true) :
    addAlias settings name shorthand state =
      .ok { state with aliases := state.aliases.insert shorthand name } := by
  unfold addAlias
  simp only [if_neg hself, hdefined, Bool.false_eq_true, if_false, if_neg hend, hbound,
    if_neg hother, hallowed, if_true]

/-- Takes a ready-made singleton. -/
def addSingleton (name : String) (value : Value) (state : State) : Except Failure State :=
  if state.singletons.contains name then
    .error (.invalidDefinition none (some name) (.objectBound name))
  else .ok { state with singletons := state.singletons.insert name value }

theorem addSingleton_eq_ok_iff {name : String} {value : Value} {state after : State} :
    addSingleton name value state = .ok after ↔
      state.singletons.contains name = false ∧
        after = { state with singletons := state.singletons.insert name value } := by
  unfold addSingleton
  by_cases h : state.singletons.contains name = true
  · rw [if_pos h]
    constructor
    · intro he; cases he
    · rintro ⟨hc, -⟩; rw [h] at hc; cases hc
  · rw [if_neg h]
    constructor
    · intro he; exact ⟨by simpa using h, (Except.ok.inj he).symm⟩
    · rintro ⟨-, rfl⟩; rfl

end State

end Injector
