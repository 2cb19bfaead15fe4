import Injector.Proofs.Resolution.Memos

/-!
# Whether noted types make a difference

A type that is noted for an array or a typed text spares looking up its type name again. That is meant to
make no difference, and for a definition that stays in its container it makes none. But a definition that
is completed by one of an ancestor takes over the notes made there, and the classes that the container
itself knows need not be those that the ancestor knows.

Every type that is noted is the one that some container of the chain finds. Whether it was noted makes no
difference exactly if the container itself finds it as well (`noted_types_transparent_iff`); otherwise a
bean can be had after an ancestor was asked for one that cannot be had before
(`not_transparent_inherited`).
-/

namespace Injector

variable {family : Family}

/-! ## Outcomes -/

namespace Work

variable {α β : Type}

/-- What comes of work does not depend on worlds if that is so for its parts. -/
theorem bind_fst_congr {work work' : Work α} {next next' : α → Work β} {world world' : World}
    (h : (work world).1 = (work' world').1)
    (hnext : ∀ value after after', (next value after).1 = (next' value after').1) :
    ((work >>= next) world).1 = ((work' >>= next') world').1 := by
  rw [bind_apply, bind_apply]
  rcases hrun : work world with ⟨stop | value, after⟩ <;>
    rcases hrun' : work' world' with ⟨stop' | value', after'⟩ <;> rw [hrun, hrun'] at h <;> cases h
  · rfl
  · exact hnext value after after'

theorem explain_fst_congr {work work' : Work α} {reword : Failure → Failure} {world world' : World}
    (h : (work world).1 = (work' world').1) :
    (work.explain reword world).1 = (work'.explain reword world').1 := by
  unfold explain
  rcases hrun : work world with ⟨(failure | _) | value, after⟩ <;>
    rcases hrun' : work' world' with ⟨(failure' | _) | value', after'⟩ <;> rw [hrun, hrun'] at h <;>
    cases h <;> rfl

end Work

/-! ## Raw values without their own note -/

/-- The raw value without the type that is noted for itself. -/
def RawValue.unnoted : RawValue → RawValue
  | array name _ elements => array name none elements
  | typed typedText => typed { typedText with memo := none }
  | raw => raw

namespace Resolution

variable {r : Resolution} {classes : ClassTable}
  (hnamed : ∀ name, r.provider.typeNamed name = Work.ofExcept (classes.typeNamed name))
  (hevaluate : ∀ text, ∃ result, r.provider.evaluate text = Work.ofStop result)

include hevaluate in
/-- What a typed text is evaluated to depends neither on notes nor on the world. -/
theorem evaluateTyped_fst {typed typed' : TypedText} (htext : typed.text = typed'.text)
    (steps : List Step) (world world' : World) :
    (r.evaluateTyped steps typed world).1 = (r.evaluateTyped steps typed' world').1 := by
  unfold evaluateTyped
  rw [htext]
  cases typed'.text with
  | none => rfl
  | some text =>
    obtain ⟨result, hresult⟩ := hevaluate text
    dsimp only
    rw [hresult]
    refine Work.bind_fst_congr ?_ fun value after after' => ?_
    · cases result <;> rfl
    · split <;> rfl

include hnamed in
/-- What is noted for a typed text is what its target name stands for, so either gives the same. -/
theorem targetOf_fst {typed : TypedText} {name : String} {type : ValueType}
    (htarget : typed.target = some (.named name)) (hmemo : typed.memo = some type)
    (hfinds : classes.typeNamed name = .ok type) (steps : List Step) (world world' : World) :
    (r.targetOf steps { typed with memo := none } world).1 = (r.targetOf steps typed world').1 := by
  obtain ⟨text, target, memo, dynamic⟩ := typed
  obtain rfl : target = some (.named name) := htarget
  obtain rfl : memo = some type := hmemo
  unfold targetOf TypedText.knownTarget?
  dsimp only
  rw [hnamed, hfinds]
  rfl

include hnamed hevaluate

/-- **Where the container finds the type that is noted, resolving a raw value gives the same whether it
is noted or not.** -/
theorem resolve_unnoted {part : RawValue} {name : String} {type : ValueType}
    (hname : part.typeName? = some name) (hmemo : part.memo? = some type)
    (hfinds : classes.typeNamed name = .ok type) (path : ArgumentPath) (steps : List Step)
    (world : World) :
    (r.resolve path steps part.unnoted world).1 =
      (r.resolve path steps part (world.learn r.owner steps.reverse (.type type))).1 := by
  cases part with
  | array typeName memo elements =>
    obtain rfl : typeName = some name := hname
    obtain rfl : memo = some type := hmemo
    have hlearnt : r.elementType path steps (some name) none world =
        (.ok type, world.learn r.owner steps.reverse (.type type)) := by
      unfold elementType
      dsimp only
      rw [hnamed, hfinds]
      rfl
    rw [RawValue.unnoted, resolve, resolve, Work.bind_apply_ok hlearnt]
    rfl
  | typed typed =>
    have htarget := RawValue.target_of_typeName hname
    rw [RawValue.unnoted, resolve, resolve]
    refine Work.bind_fst_congr (Work.explain_fst_congr (evaluateTyped_fst hevaluate rfl steps _ _))
      fun value after after' => Work.explain_fst_congr (Work.bind_fst_congr
        (targetOf_fst hnamed htarget hmemo hfinds steps after after') fun target _ _ => ?_)
    cases target with
    | none => rfl
    | some type =>
      dsimp only
      cases r.converter value type <;> rfl
  | _ => cases hmemo

omit hevaluate in
/-- **Where the container does not find the type, a raw value for which it is not noted has no value.** -/
theorem resolve_unnoted_ne_ok {part : RawValue} {name : String} {failure : Failure}
    (hname : part.typeName? = some name) (hfails : classes.typeNamed name = .error failure)
    (path : ArgumentPath) (steps : List Step) (world : World) (value : Value) :
    (r.resolve path steps part.unnoted world).1 ≠ .ok value := by
  intro hok
  obtain ⟨after, hrun⟩ : ∃ after, r.resolve path steps part.unnoted world = (.ok value, after) :=
    ⟨_, Prod.ext hok rfl⟩
  cases part with
  | array typeName memo elements =>
    obtain rfl : typeName = some name := hname
    rw [RawValue.unnoted, resolve] at hrun
    obtain ⟨type, between, htype, -⟩ := Work.bind_eq_ok hrun
    unfold elementType at htype
    dsimp only at htype
    rw [hnamed, hfails] at htype
    cases htype
  | typed typed =>
    have htarget := RawValue.target_of_typeName hname
    obtain ⟨text, target, memo, dynamic⟩ := typed
    obtain rfl : target = some (.named name) := htarget
    rw [RawValue.unnoted, resolve] at hrun
    obtain ⟨evaluated, between, -, hconverted⟩ := Work.bind_eq_ok hrun
    obtain ⟨type, between', htype, -⟩ := Work.bind_eq_ok (Work.explain_eq_ok hconverted)
    unfold targetOf TypedText.knownTarget? at htype
    dsimp only at htype
    rw [hnamed, hfails] at htype
    cases htype
  | _ => cases hname

end Resolution

/-! ## Definitions by which beans are created -/

/-- The bean is created by a merged definition as it was found while something was asked since the start:
that of a name, or that of a definition nested in another one by which a bean is created. -/
inductive Creation.Drawn (start : World) : Creation family → Prop
  | bean {world : World} {member : family.Member} {name : String} {merged : Merged}
      (hworld : Remembers family start world)
      (hmerged : world.mergedIn member.chain name = .ok merged) :
      Drawn start ⟨member, name, .merged member.registry.index name, merged.definition⟩
  | nested {world : World} {outer : Creation family} {inner : String × Definition} {given : String}
      {merged : Merged} (hworld : Remembers family start world) (h : outer.Drawn start)
      (hinner : inner ∈ outer.definition.nested)
      (hmerged : world.mergedNested outer.member.chain inner.1 inner.2 (some outer.definition) =
        .ok merged) :
      Drawn start ⟨outer.member, given, .nothing, merged.definition⟩

/-- **Whatever is noted in a definition by which a bean is created is right.** -/
theorem Creation.Drawn.known {start : World} {creation : Creation family} (h : creation.Drawn start) :
    creation.definition.Known creation.member.chain := by
  induction h with
  | bean hworld hmerged => exact (hworld.memos.mergedIn _ (Family.Member.chain_has _) _ _ hmerged).1
  | nested hworld _ hinner hmerged ih =>
    exact (hworld.memos.mergedNested (Family.Member.chain_has _) hmerged).1
      ((ih.nested _ hinner).known _)

/-- **Whether a type is noted makes no difference exactly if the container finds it itself.** After any
run in which nothing is noted in definitions that are registered, and at any time while something is asked
then: if for a raw value with a type name, anywhere in a definition by which a bean is created, a type is
noted, then it is the one that some container of the chain finds for the name. If the container itself
finds it too, then resolving the raw value gives the same, value or failure, whether the type is noted or
still to be looked up; and if resolving it where the type is noted gives a value, then it does so where it
is not noted only in that case. -/
theorem noted_types_transparent_iff (operations : List (Operation family))
    (hfresh : ∀ operation ∈ operations, operation.Fresh) :
    (∀ (member : family.Member) (depth : Nat) (inquiry : Inquiry),
      (inquiry.answer depth member.registry member.ancestors).Keeps fun world after =>
        Remembers family (World.after operations) world →
          Remembers family (World.after operations) after) ∧
    Remembers family (World.after operations) (World.after operations) ∧
    ∀ creation : Creation family, creation.Drawn (World.after operations) →
      ∀ (place : List Step) (part : RawValue) (name : String) (type : ValueType),
        creation.definition.part? place = some part → part.typeName? = some name →
        part.memo? = some type →
        (∃ registry ∈ creation.member.chain, registry.classes.typeNamed name = .ok type) ∧
        ∀ (depth : Nat) (path : ArgumentPath) (world : World),
          let noted := ((creation.resolution depth).resolve path place.reverse part
            (world.learn creation.owner place (.type type))).1
          let unnoted := ((creation.resolution depth).resolve path place.reverse part.unnoted world).1
          (creation.member.registry.classes.typeNamed name = .ok type → unnoted = noted) ∧
          ∀ value, noted = .ok value →
            (unnoted = .ok value ↔ creation.member.registry.classes.typeNamed name = .ok type) := by
  have hreachable : Reachable family (World.after operations) := ⟨operations, rfl⟩
  have hmemos := World.memosKnown_after operations hfresh
  refine ⟨fun member depth inquiry =>
    inquiry.remembers hreachable.aliasesUndefined hmemos member depth, .refl hmemos, ?_⟩
  intro creation hdrawn place part name type hpart hname hmemo
  obtain ⟨registry, hmem, hfinds⟩ := hdrawn.known.found place part type hpart hmemo
  have hfinds := RawValue.typeNamed_of_finds hname hfinds
  refine ⟨⟨registry, hmem, hfinds⟩, fun depth path world => ?_⟩
  have hnamed (name : String) : (creation.resolution depth).provider.typeNamed name =
      Work.ofExcept (creation.member.registry.classes.typeNamed name) := rfl
  have hevaluate (text : String) : ∃ result,
      (creation.resolution depth).provider.evaluate text = Work.ofStop result := ⟨_, rfl⟩
  have hsame (hown : creation.member.registry.classes.typeNamed name = .ok type) :=
    Resolution.resolve_unnoted hnamed hevaluate hname hmemo hown path place.reverse world
  rw [List.reverse_reverse] at hsame
  refine ⟨hsame, fun value hvalue => ⟨fun hok => ?_, fun hown => (hsame hown).trans hvalue⟩⟩
  cases hown : creation.member.registry.classes.typeNamed name with
  | error failure =>
    exact absurd hok (Resolution.resolve_unnoted_ne_ok hnamed hname hown path _ world value)
  | ok other => rw [ClassTable.typeNamed_unique hown hfinds]

/-! ### An array that is inherited -/

/-- Classes of plain beans. -/
def plainClasses (names : List String) : ClassTable :=
  names.foldl (fun table name => table.register name { construct := Plan.constructor (.plain name) [] }) {}

/-- A container that knows the class `X`, and one below it that does not. -/
def layeredChain : Chain :=
  [{ index := 1, classes := plainClasses ["P"] }, { index := 0, classes := plainClasses ["P", "X"] }]

/-- The two containers. -/
def layeredFamily : Family := Family.ofChain layeredChain (by decide)

/-- The container below. -/
def lowerMember : layeredFamily.Member where
  registry := { index := 1, classes := plainClasses ["P"] }
  ancestors := [{ index := 0, classes := plainClasses ["P", "X"] }]
  has := List.suffix_refl _

/-- The container above, which knows the class `X`. -/
def upperMember : layeredFamily.Member where
  registry := { index := 0, classes := plainClasses ["P", "X"] }
  ancestors := []
  has := List.suffix_cons _ _

/-- The bean `p` above has an array of beans of class `X`, and `c` below is completed by it. In between,
things may be asked. -/
def inheritingOperations (between : List (Operation layeredFamily)) : List (Operation layeredFamily) :=
  [.register upperMember (.definition "p"
      { className := some "P", properties := [("xs", .array (some "X") none [])] })] ++ between ++
    [.register lowerMember (.definition "c" { parent := some "p" })]

/-- **The bean `c` can be had after `p` was asked for, and it cannot be had if `p` was not.** -/
theorem not_transparent_inherited :
    (Chain.bean 3 lowerMember.chain "c" (World.after (inheritingOperations
      [.inquire upperMember 3 (.bean "p")]))).1.toOption.isSome = true ∧
    (Work.failure? (Chain.bean 3 lowerMember.chain "c"
      (World.after (inheritingOperations []))).1).map Failure.message =
        some ("Error creating bean with name 'c': " ++
          "Error resolving array type for bean property 'xs'") := by
  decide +kernel

/-- Definitions of nothing but plain arrays are as they were written. -/
theorem inheritingOperations_fresh : ∀ operation ∈ inheritingOperations
    [.inquire upperMember 3 (.bean "p")], operation.Fresh := by
  intro operation hmem
  unfold inheritingOperations at hmem
  simp only [List.cons_append, List.nil_append, List.mem_cons, List.not_mem_nil, or_false] at hmem
  rcases hmem with rfl | rfl | rfl
  · exact .intro (by decide) rfl fun inner hinner => nomatch hinner
  · trivial
  · exact .intro (by decide) rfl fun inner hinner => nomatch hinner

/-- What `c` has from `p` is noted above and not found below. -/
theorem noted_types_transparent_inherited :
    ∃ (creation : Creation layeredFamily) (part : RawValue),
      creation.Drawn (World.after (inheritingOperations [.inquire upperMember 3 (.bean "p")])) ∧
      creation.definition.part? [.property "xs"] = some part ∧ part.memo? = some (.bean "X") ∧
      (∃ registry ∈ creation.member.chain, registry.classes.typeNamed "X" = .ok (.bean "X")) ∧
      ∀ (depth : Nat) (path : ArgumentPath) (world : World) (value : Value),
        ((creation.resolution depth).resolve path [.property "xs"] part
          (world.learn creation.owner [.property "xs"] (.type (.bean "X")))).1 = .ok value →
        ((creation.resolution depth).resolve path [.property "xs"] part.unnoted world).1 ≠ .ok value := by
  have hsummary : ((World.after (inheritingOperations
      [.inquire upperMember 3 (.bean "p")])).mergedIn lowerMember.chain "c").toOption.bind
      (fun merged => (merged.definition.part? [.property "xs"]).map
        fun part => (part.typeName?, part.memo?)) = some (some "X", some (.bean "X")) := by
    decide +kernel
  cases hmerged : (World.after (inheritingOperations
      [.inquire upperMember 3 (.bean "p")])).mergedIn lowerMember.chain "c" with
  | error failure =>
    rw [hmerged] at hsummary
    cases hsummary
  | ok merged =>
    rw [hmerged] at hsummary
    obtain ⟨part, hpart, hsummary⟩ := Option.map_eq_some_iff.mp hsummary
    obtain ⟨hname, hmemo⟩ := Prod.mk.inj hsummary
    obtain ⟨-, hstart, hparts⟩ := noted_types_transparent_iff _ inheritingOperations_fresh
    have hdrawn := Creation.Drawn.bean hstart hmerged
    obtain ⟨hfound, htransparent⟩ := hparts _ hdrawn [.property "xs"] part "X" (.bean "X") hpart hname hmemo
    refine ⟨_, part, hdrawn, hpart, hmemo, hfound, fun depth path world value hnoted hunnoted => ?_⟩
    have hown := ((htransparent depth path world).2 value hnoted).mp hunnoted
    have hunknown : (plainClasses ["P"]).typeNamed "X" = .error (.typeNotFound "X") := by rfl
    exact absurd (hown.symm.trans hunknown) nofun

end Injector
