import Injector.Proofs.Creation.ProductSteps

/-!
# Products that are kept

A product is kept under a name if a singleton of that name exists. Nothing compares that singleton, the
holder, with the factory whose product is asked for. They are the same for a bean that is had by its
name; a nested bean that is no singleton goes by the name it was declared with, and a singleton of the
container may have that name as well.

If the holder is another bean, the product is misattributed (`Event.Misattributed`): it is given for a
factory that did not make it, or kept for one. Nothing else spoils products, so a run keeps them sound
exactly as long as none is misattributed (`productsSound_iff_not_misattributed`).
-/

namespace Injector

open Relation

variable {family : Family}

/-! ## Sound products -/

/-- As far as the journal tells, products are kept for the factories that made them, and were given for
the factories that made them. -/
structure ProductsGood (family : Family) (journal : List Event) (world : World) : Prop where
  kept : ∀ index name product, (world.state index).products.find? name = some product →
    ∃ holder label maker, (world.state index).singletons.find? name = some holder ∧
      holder.factory? = some (label, maker) ∧ Made family journal index name label product
  given : ∀ index name label product holder,
    Event.given index name label product holder ∈ world.journal →
      Made family journal index name label product

/-- What is kept under a name is a product of the factory that is the singleton of that name, and
whatever was given for a factory is a product of it. -/
def World.ProductsSound (family : Family) (world : World) : Prop :=
  ProductsGood family world.journal world

/-- The factory that made a product. -/
def Event.maker? : Event → Option BeanLabel
  | .produced label _ => some label
  | _ => none

/-- The factory that a product was given for. -/
def Event.givenFor? : Event → Option BeanLabel
  | .given _ _ label _ _ => some label
  | _ => none

/-- Every factory that a product was given for has made one. -/
theorem World.ProductsSound.givenFor_subset {world : World} (h : world.ProductsSound family) :
    world.journal.filterMap Event.givenFor? ⊆ world.journal.filterMap Event.maker? := by
  intro label hmem
  obtain ⟨event, hevent, hlabel⟩ := List.mem_filterMap.mp hmem
  cases event with
  | given index name label product holder =>
    cases hlabel
    obtain ⟨made, hproduced, -⟩ := h.given index name label product holder hevent
    exact List.mem_filterMap.mpr ⟨_, hproduced, rfl⟩
  | _ => cases hlabel

/-- A product was given under the name of another bean than its factory, and it is not a product of
both of them. -/
def Event.Misattributed (family : Family) (journal : List Event) : Event → Prop
  | .given index name label product (some holder) =>
    (∀ maker, holder.factory? ≠ some (label, maker)) ∧
      ¬ (Made family journal index name label product ∧
        ∃ other maker, holder.factory? = some (other, maker) ∧
          Made family journal index name other product)
  | _ => False

/-- More things done make no product misattributed that was not before. -/
theorem Event.Misattributed.anti {journal journal' : List Event} (hsub : journal ⊆ journal')
    {event : Event} (h : event.Misattributed family journal') : event.Misattributed family journal := by
  cases event with
  | given index name label product holder =>
    cases holder with
    | none => exact h
    | some holder =>
      obtain ⟨hother, hnot⟩ := h
      refine ⟨hother, fun ⟨hmade, other, maker, hfactory, hmade'⟩ => hnot ?_⟩
      exact ⟨hmade.mono hsub, other, maker, hfactory, hmade'.mono hsub⟩
  | _ => exact h

/-- What the holder made and is given for a factory was made by that factory, if it is not misattributed. -/
theorem Made.of_holder {journal : List Event} {index : Nat} {name : String} {label other : BeanLabel}
    {product holder : Value} {maker : Factory Value}
    (hnot : ¬ (Event.given index name label product (some holder)).Misattributed family journal)
    (hfactory : holder.factory? = some (other, maker))
    (hmade : Made family journal index name other product) :
    Made family journal index name label product := by
  by_contra hother
  refine hnot ⟨fun maker' hself => ?_, fun hboth => hother hboth.1⟩
  cases hfactory.symm.trans hself
  exact hother hmade

/-- What a factory made and is given under the name of a holder was made by the holder, if it is not
misattributed. -/
theorem Made.holder {journal : List Event} {index : Nat} {name : String} {label : BeanLabel}
    {product holder : Value}
    (hnot : ¬ (Event.given index name label product (some holder)).Misattributed family journal)
    (hmade : Made family journal index name label product) :
    ∃ other maker, holder.factory? = some (other, maker) ∧
      Made family journal index name other product := by
  by_contra hother
  refine hnot ⟨fun maker hself => ?_, fun hboth => hother hboth.2⟩
  exact hother ⟨label, maker, hself, hmade⟩

theorem ProductsGood.mono {journal journal' : List Event} {world : World} (hsub : journal ⊆ journal')
    (h : ProductsGood family journal world) : ProductsGood family journal' world where
  kept index name product hkept := by
    obtain ⟨holder, label, maker, hholder, hfactory, hmade⟩ := h.kept index name product hkept
    exact ⟨holder, label, maker, hholder, hfactory, hmade.mono hsub⟩
  given index name label product holder hgiven :=
    (h.given index name label product holder hgiven).mono hsub

/-- It may be noted that a product was given for a factory that made it. -/
theorem ProductsGood.noting {journal : List Event} {world : World} {index : Nat} {name : String}
    {label : BeanLabel} {product : Value} (h : ProductsGood family journal world)
    (holder : Option Value) (hmade : Made family journal index name label product) :
    ProductsGood family journal (world.noting (.given index name label product holder)) where
  kept := h.kept
  given index' name' label' product' holder' hgiven := by
    rcases List.mem_cons.mp hgiven with he | hmem
    · cases he
      exact hmade
    · exact h.given index' name' label' product' holder' hmem

/-- A product may be kept that the holder made. -/
theorem ProductsGood.keep {journal : List Event} {world : World} {index : Nat} {name : String}
    {label : BeanLabel} {product holder : Value} {maker : Factory Value}
    (h : ProductsGood family journal world)
    (hholder : (world.state index).singletons.find? name = some holder)
    (hfactory : holder.factory? = some (label, maker))
    (hmade : Made family journal index name label product) :
    ProductsGood family journal (world.withState index
      { world.state index with
        products := (world.state index).products.insertNew name product }) where
  kept index' name' product' hkept := by
    rw [World.state_withState] at hkept ⊢
    split at hkept
    · next he =>
      subst he
      rw [if_pos rfl]
      dsimp only at hkept ⊢
      rw [Table.find?_insertNew] at hkept
      split at hkept
      · next he =>
        subst he
        cases hbefore : (world.state index').products.find? name' with
        | some before =>
          rw [hbefore] at hkept
          cases hkept
          exact h.kept index' name' before hbefore
        | none =>
          rw [hbefore] at hkept
          cases hkept
          exact ⟨holder, label, maker, hholder, hfactory, hmade⟩
      · exact h.kept index' name' product' hkept
    · next he =>
      rw [if_neg he]
      exact h.kept index' name' product' hkept
  given := h.given

/-! ## One step -/

theorem find?_insertNew_of_some {α : Type} {table : Table α} {name other : String} {value found : α}
    (h : table.find? other = some found) : (table.insertNew name value).find? other = some found := by
  rw [Table.find?_insertNew]
  split
  · next he =>
    rw [← he, h]
    rfl
  · exact h

namespace ProductStep

variable {world after : World}

/-- What was done stays done. -/
theorem journal_subset (h : ProductStep family world after) : world.journal ⊆ after.journal := by
  cases h with
  | quiet _ new hjournal _ =>
    rw [hjournal]
    exact List.subset_append_right _ _
  | singleton index name value hafter =>
    rw [hafter]
    exact List.Subset.refl _
  | given index name label product _ hafter =>
    rw [hafter]
    exact List.subset_cons_self _ _
  | reused index name label product holder _ _ hafter =>
    rw [hafter]
    exact List.subset_cons_self _ _
  | kept index name label product holder _ _ _ hafter =>
    rw [hafter]
    exact List.subset_cons_self _ _

/-- A singleton or a product that is kept stays. -/
theorem grows (h : ProductStep family world after) (index : Nat) (name : String) (value : Value) :
    ((world.state index).singletons.find? name = some value →
        (after.state index).singletons.find? name = some value) ∧
      ((world.state index).products.find? name = some value →
        (after.state index).products.find? name = some value) := by
  cases h with
  | quiet hsame _ _ _ =>
    rw [(hsame index).1, (hsame index).2]
    exact ⟨id, id⟩
  | singleton index' name' made hafter =>
    subst hafter
    rw [World.state_withState]
    split
    · next he =>
      subst he
      exact ⟨find?_insertNew_of_some, id⟩
    · exact ⟨id, id⟩
  | given _ _ _ _ _ hafter =>
    subst hafter
    exact ⟨id, id⟩
  | reused _ _ _ _ _ _ _ hafter =>
    subst hafter
    exact ⟨id, id⟩
  | kept index' name' label product holder _ _ _ hafter =>
    subst hafter
    show (_ → ((world.withState _ _).state index).singletons.find? name = _) ∧
      (_ → ((world.withState _ _).state index).products.find? name = _)
    rw [World.state_withState]
    split
    · next he =>
      subst he
      exact ⟨id, find?_insertNew_of_some⟩
    · exact ⟨id, id⟩

/-- A product that is given for a holder is the one that is kept under its name from then on. -/
theorem held_of_given (h : ProductStep family world after) {index : Nat} {name : String}
    {label : BeanLabel} {product holder : Value}
    (hgiven : Event.given index name label product (some holder) ∈ after.journal) :
    Event.given index name label product (some holder) ∈ world.journal ∨
      (after.state index).singletons.find? name = some holder ∧
        (after.state index).products.find? name = some product := by
  cases h with
  | quiet _ new hjournal hnew =>
    rw [hjournal] at hgiven
    rcases List.mem_append.mp hgiven with hmem | hmem
    · exact absurd trivial (hnew _ hmem)
    · exact Or.inl hmem
  | singleton _ _ _ hafter =>
    subst hafter
    exact Or.inl hgiven
  | given _ _ _ _ _ hafter =>
    subst hafter
    rcases List.mem_cons.mp hgiven with he | hmem
    · cases he
    · exact Or.inl hmem
  | reused _ _ _ _ _ hholder hkept hafter =>
    subst hafter
    rcases List.mem_cons.mp hgiven with he | hmem
    · cases he
      exact Or.inr ⟨hholder, hkept⟩
    · exact Or.inl hmem
  | kept index' name' _ product' _ hholder hunkept _ hafter =>
    -- the product that is given is the one that is kept in the same step
    subst hafter
    rcases List.mem_cons.mp hgiven with he | hmem
    · cases he
      refine Or.inr ?_
      show ((world.withState _ _).state index).singletons.find? name = _ ∧
        ((world.withState _ _).state index).products.find? name = _
      rw [World.state_withState, if_pos rfl]
      refine ⟨hholder, ?_⟩
      dsimp only
      rw [Table.find?_insertNew, if_pos rfl, hunkept]
      rfl
    · exact Or.inl hmem

/-- **A step keeps products good unless one is misattributed in it.** -/
theorem preserves_good {journal : List Event} (h : ProductStep family world after)
    (hsub : after.journal ⊆ journal)
    (hnone : ∀ event ∈ journal, ¬ event.Misattributed family journal)
    (hgood : ProductsGood family journal world) : ProductsGood family journal after := by
  have hgrows := h.grows
  have hsubset := h.journal_subset
  cases h with
  | quiet hsame new hjournal hnew =>
    refine ⟨fun index name product hkept => ?_, fun index name label product holder hgiven => ?_⟩
    · rw [(hsame index).2] at hkept
      rw [(hsame index).1]
      exact hgood.kept index name product hkept
    · rw [hjournal] at hgiven
      rcases List.mem_append.mp hgiven with hmem | hmem
      · exact absurd trivial (hnew _ hmem)
      · exact hgood.given index name label product holder hmem
  | singleton index' name' value hafter =>
    subst hafter
    refine ⟨fun index name product hkept => ?_, hgood.given⟩
    have hbefore : (world.state index).products.find? name = some product := by
      rw [World.state_withState] at hkept
      split at hkept
      · next he =>
        rw [he]
        exact hkept
      · exact hkept
    obtain ⟨holder, label, maker, hholder, hmaker⟩ := hgood.kept index name product hbefore
    exact ⟨holder, label, maker, (hgrows index name holder).1 hholder, hmaker⟩
  | given index name label product hmade hafter =>
    subst hafter
    exact hgood.noting none (hmade.mono (List.Subset.trans hsubset hsub))
  | reused index name label product holder hholder hkept hafter =>
    subst hafter
    have hnot := hnone _ (hsub List.mem_cons_self)
    -- what is kept was made by the holder, which need not be the factory that asks
    obtain ⟨_, other, maker, hholder', hfactory, hmade⟩ := hgood.kept _ _ _ hkept
    cases hholder.symm.trans hholder'
    exact hgood.noting (some holder) (Made.of_holder hnot hfactory hmade)
  | kept index name label product holder hholder _ hmade hafter =>
    subst hafter
    have hnot := hnone _ (hsub List.mem_cons_self)
    have hnew : Made family journal index name label product :=
      hmade.mono (List.Subset.trans hsubset hsub)
    -- the factory made it, but it is kept for the holder
    obtain ⟨other, maker, hfactory, hmade'⟩ := Made.holder hnot hnew
    exact (hgood.keep hholder hfactory hmade').noting (some holder) hnew

end ProductStep

/-! ## Many steps -/

section

variable {world after : World}

theorem journal_subset_of_steps (h : ReflTransGen (ProductStep family) world after) :
    world.journal ⊆ after.journal := by
  induction h with
  | refl => exact List.Subset.refl _
  | tail _ hstep ih => exact List.Subset.trans ih hstep.journal_subset

/-- What was given for a holder on the way is kept in the end. -/
theorem held_of_steps (h : ReflTransGen (ProductStep family) world after) {index : Nat} {name : String}
    {label : BeanLabel} {product holder : Value}
    (hgiven : Event.given index name label product (some holder) ∈ after.journal) :
    Event.given index name label product (some holder) ∈ world.journal ∨
      (after.state index).singletons.find? name = some holder ∧
        (after.state index).products.find? name = some product := by
  induction h with
  | refl => exact Or.inl hgiven
  | tail _ hstep ih =>
    rcases hstep.held_of_given hgiven with hmem | hheld
    · rcases ih hmem with hbefore | ⟨hholder, hkept⟩
      · exact Or.inl hbefore
      · -- within one answer nothing that is kept is taken away again
        exact Or.inr ⟨(hstep.grows index name holder).1 hholder,
          (hstep.grows index name product).2 hkept⟩
    · exact Or.inr hheld

theorem good_of_steps (h : ReflTransGen (ProductStep family) world after) {journal : List Event}
    (hsub : after.journal ⊆ journal)
    (hnone : ∀ event ∈ journal, ¬ event.Misattributed family journal)
    (hgood : ProductsGood family journal world) : ProductsGood family journal after := by
  induction h with
  | refl => exact hgood
  | tail _ hstep ih =>
    have hbefore := ih (List.Subset.trans hstep.journal_subset hsub)
    exact hstep.preserves_good hsub hnone hbefore

end

/-! ## Registering -/

/-- If products are kept for singletons alone, what a registration leaves kept was kept before, for the
same singleton. -/
def State.KeepsProducts (state after : State) : Prop :=
  (∀ name, state.products.contains name = true → state.singletons.contains name = true) →
    ∀ name product, after.products.find? name = some product →
      state.products.find? name = some product ∧
        after.singletons.find? name = state.singletons.find? name

theorem State.keepsProducts_forget {state after : State} {name : String}
    (hproducts : after.products = state.products.erase name)
    (hsingletons : after.singletons = state.singletons.erase name) : state.KeepsProducts after := by
  intro _ other product hkept
  rw [hproducts, Table.find?_erase] at hkept
  rw [hsingletons, Table.find?_erase]
  split at hkept
  · cases hkept
  · next he => exact ⟨hkept, if_neg he⟩

theorem Registry.take_keepsProducts (registry : Registry) (registration : Registration) :
    (registry.take registration).Keeps (Statewise State.KeepsProducts) := by
  refine Registry.take_statewise (fun _ _ _ _ h => ⟨h, rfl⟩) ?_ ?_ ?_ ?_ ?_ registration
  · intro a b c hab hbc ha name product hkept
    have hb : ∀ name, b.products.contains name = true → b.singletons.contains name = true := by
      intro other hcontains
      obtain ⟨kept, hkept⟩ := (Table.contains_iff_find? _ _).mp hcontains
      obtain ⟨hbefore, hsame⟩ := hab ha other kept hkept
      rw [Table.contains, hsame]
      exact ha other (Table.contains_of_find? hbefore)
    obtain ⟨hkept, hsame⟩ := hbc hb name product hkept
    obtain ⟨hkept, hsame'⟩ := hab ha name product hkept
    exact ⟨hkept, hsame.trans hsame'⟩
  · intro name definition state after hok
    obtain ⟨-, -, rfl⟩ := State.define_eq_ok_iff.mp hok
    exact State.keepsProducts_forget rfl rfl
  · intro name shorthand state after hok
    rcases State.addAlias_eq_ok hok with ⟨-, rfl⟩ | ⟨-, rfl⟩ | ⟨-, -, -, -, rfl⟩
    · exact fun _ _ _ hkept => ⟨hkept, rfl⟩
    · exact fun _ _ _ hkept => ⟨hkept, rfl⟩
    · exact fun _ _ _ hkept => ⟨hkept, rfl⟩
  · intro name state after hok
    obtain ⟨-, rfl⟩ := State.remove_eq_ok_iff.mp hok
    exact State.keepsProducts_forget rfl rfl
  · intro name value state after hok
    obtain ⟨hnew, rfl⟩ := State.addSingleton_eq_ok_iff.mp hok
    intro hsingletons other product hkept
    refine ⟨hkept, ?_⟩
    dsimp only
    rw [Table.find?_insert, if_neg]
    rintro rfl
    have hcontains : state.singletons.contains other = true :=
      hsingletons other (Table.contains_of_find? hkept)
    rw [hnew] at hcontains
    cases hcontains

/-! ## Runs -/

namespace World

variable {world : World}

theorem productsSound_empty : World.ProductsSound family {} where
  kept _ _ _ hkept := nomatch hkept
  given _ _ _ _ _ hgiven := nomatch hgiven

/-- Registering keeps products sound. -/
theorem ProductsSound.take (h : world.ProductsSound family) (registry : Registry)
    (registration : Registration) :
    (registry.take registration world).2.ProductsSound family := by
  have hjournal := registry.take_journal registration world
  have hkeeps := registry.take_keepsProducts registration world
  unfold ProductsSound
  rw [hjournal]
  refine ⟨fun index name product hkept => ?_, fun index name label product holder hgiven => ?_⟩
  · have hsingletons : ∀ name, (world.state index).products.contains name = true →
        (world.state index).singletons.contains name = true := by
      intro other hcontains
      obtain ⟨product, hkept⟩ := (Table.contains_iff_find? _ _).mp hcontains
      obtain ⟨holder, _, _, hholder, -⟩ := h.kept index other product hkept
      exact Table.contains_of_find? hholder
    obtain ⟨hkept, hsame⟩ := hkeeps index hsingletons name product hkept
    rw [hsame]
    exact h.kept index name product hkept
  · rw [hjournal] at hgiven
    exact h.given index name label product holder hgiven

/-- If products are sound, those that are kept for their holders are not misattributed. -/
theorem ProductsSound.not_misattributed (h : world.ProductsSound family) {index : Nat} {name : String}
    {label : BeanLabel} {product holder : Value}
    (hgiven : Event.given index name label product (some holder) ∈ world.journal)
    (hholder : (world.state index).singletons.find? name = some holder)
    (hkept : (world.state index).products.find? name = some product) :
    ¬ (Event.given index name label product (some holder)).Misattributed family world.journal := by
  rintro ⟨-, hnot⟩
  obtain ⟨_, other, maker, hholder', hfactory, hmade⟩ := h.kept index name product hkept
  cases hholder.symm.trans hholder'
  exact hnot ⟨h.given index name label product _ hgiven, other, maker, hfactory, hmade⟩

end World

/-- **Products are sound all along a run exactly if none was misattributed in it.** -/
theorem productsSound_iff_not_misattributed (operations : List (Operation family)) :
    (∀ done, done <+: operations → (World.after done).ProductsSound family) ↔
      ∀ done, done <+: operations → ∀ event ∈ (World.after done).journal,
        ¬ event.Misattributed family (World.after done).journal := by
  constructor
  · refine forall_prefix_of (P := World.ProductsSound family)
      (Q := fun world => ∀ event ∈ world.journal, ¬ event.Misattributed family world.journal)
      (fun _ hmem => nomatch hmem) ?_
    intro world operation _ _ hafter hnone event hmem
    cases operation with
    | register member registration =>
      have hjournal := member.registry.take_journal registration world
      change event ∈ (member.registry.take registration world).2.journal at hmem
      rw [hjournal] at hmem
      show ¬ event.Misattributed family (member.registry.take registration world).2.journal
      rw [hjournal]
      exact hnone event hmem
    | inquire member depth inquiry =>
      have hsteps := inquiry.productSteps member depth world
      -- in a longer journal fewer products count as wrong, since more of them were made
      have hold : event ∈ world.journal →
          ¬ event.Misattributed family
            (inquiry.answer depth member.registry member.ancestors world).2.journal :=
        fun hmem hwrong => hnone event hmem (hwrong.anti (journal_subset_of_steps hsteps))
      cases event with
      | given index name label product holder =>
        cases holder with
        | none => exact id
        | some holder =>
          rcases held_of_steps hsteps hmem with hbefore | ⟨hholder, hkept⟩
          · exact hold hbefore
          · exact hafter.not_misattributed hmem hholder hkept
      | _ => exact id
  · refine forall_prefix_of
      (P := fun world => ∀ event ∈ world.journal, ¬ event.Misattributed family world.journal)
      (Q := World.ProductsSound family) World.productsSound_empty ?_
    intro world operation _ _ hnone hsound
    cases operation with
    | register member registration => exact hsound.take member.registry registration
    | inquire member depth inquiry =>
      have hsteps := inquiry.productSteps member depth world
      exact good_of_steps hsteps (List.Subset.refl _) hnone
        (hsound.mono (journal_subset_of_steps hsteps))

/-! ### A nested factory under the name of another one -/

/-- A class of factories whose product is a text. -/
def textFactory (text : String) : BeanClass where
  construct := Plan.constructor (.factory "Factory" (.production (.always (.text text))) none true) []
  productType := some .text

/-- A container with two such classes and a class of plain beans. -/
def nestingRegistry : Registry where
  index := 0
  classes := ((ClassTable.register {} "F" (textFactory "outer")).register "G"
    (textFactory "inner")).register "P" { construct := Plan.constructor (.plain "P") [] }

/-- The bean `n` is a factory, and so is the nested bean of that name in the prototype `p`. -/
def nestingOperations : List (Operation (Family.lone nestingRegistry)) :=
  let member := Registry.lone nestingRegistry
  [.register member (.definition "n" { className := some "F" }),
    .register member (.definition "p"
      { className := some "P"
        declaredScope := some .prototype
        properties := [("x", .holder "n" [] { className := some "G" })] }),
    .inquire member 3 (.bean "n"),
    .inquire member 3 (.bean "p")]

/-- The nested factory, which is the second bean made, was never asked, and yet the product of `n` was
given for it. -/
theorem not_productsSound_after_nesting :
    ¬ (World.after nestingOperations).ProductsSound (Family.lone nestingRegistry) := by
  intro h
  have hmakers : (World.after nestingOperations).journal.filterMap Event.maker? = [.made 1] := by
    decide +kernel
  have hgiven : (World.after nestingOperations).journal.filterMap Event.givenFor? =
      [.made 2, .made 1] := by
    decide +kernel
  have hsub := h.givenFor_subset
  rw [hmakers, hgiven] at hsub
  exact absurd (hsub List.mem_cons_self) (by decide)

end Injector
