import Injector.Proofs.Placeholders.Expansion
import Mathlib

/-!
# When an expansion ends

A text is expanded through the bodies of its placeholders, which shrink, and through the values of
their keys, which need not. While a value is expanded its key is on the stack and cannot come again, so
an expansion goes on for ever only if ever new keys come up: **it ends exactly if finitely many keys
come onto the stack** (`Settings.expansionEnds_iff`). Without defaults the names of properties are all the keys
there are. A default is cut out of a body that is expanded already, and that body may have grown: the
settings `growing` have three properties and expand one text for ever (`growing_not_expansionEnds`).

* `Marks.Meets` says which keys come onto the stack.
* `Settled` says that an outcome is not that of being stopped for the depth; what a placeholder and a
  text need to be settled is `settled_substitute_iff` and `settled_scan_iff`.
* `finite_of_settled` and `exists_settled` are the two directions, over any stack.
-/

namespace Injector

/-! ## Settled outcomes -/

/-- The outcome is a result or a failure, not that of being stopped for its depth. -/
def Settled {α : Type} (outcome : Except Stop α) : Prop :=
  outcome ≠ .error .tooDeep

namespace Settled

variable {α β : Type} {outcome further : Except Stop α}

theorem settled_ok (value : α) : Settled (.ok value : Except Stop α) :=
  nofun

theorem settled_failure (failure : Failure) : Settled (.error (.failure failure) : Except Stop α) :=
  nofun

/-- A settled outcome is kept. -/
theorem mono (h : Settled outcome) (hsettles : Settles outcome further) : Settled further :=
  hsettles h ▸ h

theorem settled_bind_iff {next : α → Except Stop β} :
    Settled (outcome >>= next) ↔
      Settled outcome ∧ ∀ value, outcome = .ok value → Settled (next value) := by
  rcases outcome with (failure | _) | value
  · exact ⟨fun _ => ⟨nofun, nofun⟩, fun _ => nofun⟩
  · exact ⟨fun h => absurd rfl h, fun h => absurd rfl h.1⟩
  · exact ⟨fun h => ⟨nofun, fun other heq => Except.ok.inj heq ▸ h⟩, fun h => h.2 value rfl⟩

/-- Where more depth settles nothing anew, two settled outcomes are the same. -/
theorem agree {outcome : Nat → Except Stop α}
    (hsettles : ∀ depth further, depth ≤ further → Settles (outcome depth) (outcome further))
    {depth further : Nat} (h : Settled (outcome depth)) (h' : Settled (outcome further)) :
    outcome depth = outcome further := by
  rcases Nat.le_total depth further with hle | hle
  · exact (hsettles _ _ hle h).symm
  · exact hsettles _ _ hle h'

end Settled

namespace Marks

variable {marks : Marks} {whole : String}

/-! ## The first placeholder -/

/-- Nothing of a text is lost when a placeholder's end is found. -/
theorem joined_of_body? {depth : Nat} {text body rest : List Char}
    (h : marks.body? depth text = some (body, rest)) : body ++ marks.closing ++ rest = text := by
  fun_induction body? marks depth text generalizing body rest with
  | case1 => cases h
  | case2 c text after hclosing =>
    obtain ⟨rfl, rfl⟩ : [] = body ∧ after = rest := by simpa using h
    exact Text.append_of_isPrefixOf? hclosing
  | case3 c text after hclosing depth ih =>
    obtain ⟨⟨inner, beyond⟩, hinner, heq⟩ := Option.map_eq_some_iff.1 h
    obtain ⟨rfl, rfl⟩ := Prod.mk.inj heq
    rw [← Text.append_of_isPrefixOf? hclosing, ← ih hinner]
    simp
  | case4 => cases h
  | case5 depth c text _ after hopening _ ih =>
    obtain ⟨⟨inner, beyond⟩, hinner, heq⟩ := Option.map_eq_some_iff.1 h
    obtain ⟨rfl, rfl⟩ := Prod.mk.inj heq
    rw [← Text.append_of_isPrefixOf? hopening, ← ih hinner]
    simp
  | case6 depth c text _ _ ih =>
    obtain ⟨⟨inner, beyond⟩, hinner, heq⟩ := Option.map_eq_some_iff.1 h
    obtain ⟨rfl, rfl⟩ := Prod.mk.inj heq
    rw [← ih hinner]
    simp

/-- A character at which no mark stands is passed. -/
theorem body?_of_plain {depth : Nat} {c : Char} {text : List Char}
    (hclosing : marks.closing.isPrefixOf? (c :: text) = none)
    (hopening : marks.opening.isPrefixOf? (c :: text) = none) :
    marks.body? depth (c :: text) =
      (marks.body? depth text).map fun (body, beyond) => (c :: body, beyond) := by
  rw [body?]
  split
  · simp_all
  · split
    · simp_all
    · rfl

/-- The first placeholder of a text, if there is one that is closed: what stands before it, its body
and what follows. -/
def first? (marks : Marks) (text : List Char) : Option (List Char × List Char × List Char) :=
  (Text.cutAt marks.opening text).bind fun (before, opened) =>
    (marks.body? 0 opened).map fun (body, rest) => (before, body, rest)

section First

variable {text before body rest : List Char}

theorem first?_eq_some_iff :
    marks.first? text = some (before, body, rest) ↔
      ∃ opened, Text.cutAt marks.opening text = some (before, opened) ∧
        marks.body? 0 opened = some (body, rest) := by
  unfold first?
  rcases Text.cutAt marks.opening text with _ | ⟨ahead, opened⟩
  · simp
  · rcases hbody : marks.body? 0 opened with _ | ⟨inner, beyond⟩ <;> simp [hbody, and_comm]

theorem joined_of_first? (h : marks.first? text = some (before, body, rest)) :
    before ++ marks.opening ++ (body ++ marks.closing ++ rest) = text := by
  obtain ⟨opened, hcut, hbody⟩ := first?_eq_some_iff.1 h
  rw [joined_of_body? hbody, Text.joined_of_cutAt hcut]

variable (hopening : marks.opening ≠ [])

include hopening

theorem body_length_lt (h : marks.first? text = some (before, body, rest)) :
    body.length < text.length := by
  have hpos := List.length_pos_iff.2 hopening
  rw [← joined_of_first? h]
  simp only [List.length_append]
  omega

theorem rest_length_lt (h : marks.first? text = some (before, body, rest)) :
    rest.length < text.length := by
  have hpos := List.length_pos_iff.2 hopening
  rw [← joined_of_first? h]
  simp only [List.length_append]
  omega

variable {nested : List (List Char) → List Char → Expansion} {stack : List (List Char)}

omit hopening in
theorem scan_of_none (h : marks.first? text = none) :
    marks.scan whole nested stack text = .ok text := by
  rw [scan]
  unfold first? at h
  rcases hcut : Text.cutAt marks.opening text with _ | ⟨ahead, opened⟩
  · rfl
  · rcases hbody : marks.body? 0 opened with _ | ⟨inner, beyond⟩
    · simp [pure, Except.pure, hbody]
    · simp [hcut, hbody] at h

omit hopening in
/-- A text without placeholders is its own expansion. -/
theorem expand_of_none (depth : Nat) (h : marks.first? text = none) :
    marks.expand whole (depth + 1) stack text = .ok text :=
  scan_of_none h

theorem scan_of_first? (h : marks.first? text = some (before, body, rest)) :
    marks.scan whole nested stack text =
      marks.substitute whole nested stack body >>= fun inserted =>
        marks.scan whole nested stack rest >>= fun remainder =>
          .ok (before ++ inserted ++ remainder) := by
  obtain ⟨opened, hcut, hbody⟩ := first?_eq_some_iff.1 h
  rw [scan]
  simp only [hcut, hbody, rest_length_lt hopening h, if_true]
  rfl

end First

/-! ## Settling a placeholder and a text -/

section Settling

variable {nested : List (List Char) → List Char → Expansion} {stack : List (List Char)}

/-- A placeholder comes to nothing if its body does not. -/
theorem substitute_of_stop {body : List Char} {stop : Stop} (h : nested stack body = .error stop) :
    marks.substitute whole nested stack body = .error stop := by
  unfold substitute
  rw [h]
  rfl

/-- What a placeholder comes to once its key is known. -/
theorem substitute_of_key {body key : List Char} (h : nested stack body = .ok key) :
    marks.substitute whole nested stack body =
      if key ∈ stack then .error (refusal whole (.circular (String.ofList key)))
      else match marks.value? key with
        | some value => nested (key :: stack) value
        | none =>
          if marks.lenient then .ok (marks.opening ++ body ++ marks.closing)
          else .error (refusal whole (.unresolvable (String.ofList key))) := by
  unfold substitute
  rw [h]
  by_cases hstack : key ∈ stack
  · rw [if_pos hstack]
    simp [hstack, bind, Except.bind, throw, throwThe, MonadExceptOf.throw]
  · rw [if_neg hstack]
    simp only [bind, Except.bind, List.contains_eq_mem, hstack, decide_false, Bool.false_eq_true,
      if_false]
    rfl

/-- The value of a key that has one and is not on the stack is expanded. -/
theorem substitute_of_value {body key value : List Char} (h : nested stack body = .ok key)
    (hnew : key ∉ stack) (hvalue : marks.value? key = some value) :
    marks.substitute whole nested stack body = nested (key :: stack) value := by
  rw [substitute_of_key h, if_neg hnew, hvalue]

/-- A placeholder is settled if its body is, and the value of its key if there is one to expand. -/
theorem settled_substitute_iff {body : List Char} :
    Settled (marks.substitute whole nested stack body) ↔
      Settled (nested stack body) ∧
        ∀ key, nested stack body = .ok key → key ∉ stack → ∀ value, marks.value? key = some value →
          Settled (nested (key :: stack) value) := by
  rcases hbody : nested stack body with stop | key
  · rw [substitute_of_stop hbody]
    exact ⟨fun h => ⟨fun heq => h (congrArg Except.error (Except.error.inj heq)), nofun⟩,
      fun h heq => h.1 (congrArg Except.error (Except.error.inj heq))⟩
  rw [substitute_of_key hbody]
  simp only [Except.ok.injEq, forall_eq', Settled.settled_ok, true_and]
  by_cases hstack : key ∈ stack
  · simp [hstack, refusal, Settled.settled_failure]
  · rcases marks.value? key with _ | value
    · by_cases hlenient : marks.lenient <;>
        simp [hstack, hlenient, refusal, Settled.settled_failure, Settled.settled_ok]
    · simp [hstack]

/-- A text is settled if its first placeholder is, and what follows it if the placeholder comes to
something. -/
theorem settled_scan_iff (hopening : marks.opening ≠ []) {text before body rest : List Char}
    (h : marks.first? text = some (before, body, rest)) :
    Settled (marks.scan whole nested stack text) ↔
      Settled (marks.substitute whole nested stack body) ∧
        ∀ inserted, marks.substitute whole nested stack body = .ok inserted →
          Settled (marks.scan whole nested stack rest) := by
  rw [scan_of_first? hopening h, Settled.settled_bind_iff]
  refine and_congr_right fun _ => forall_congr' fun inserted => imp_congr_right fun _ => ?_
  rw [Settled.settled_bind_iff]
  exact and_iff_left fun remainder _ => Settled.settled_ok _

end Settling

/-! ## Outcomes -/

/-- The only failures are refusals to expand the whole text. -/
def OnlyRefuses (whole : String) (outcome : Expansion) : Prop :=
  ∀ failure, outcome = .error (.failure failure) → ∃ fault, failure = .evaluation whole fault

namespace OnlyRefuses

theorem ok (result : List Char) : OnlyRefuses whole (.ok result) :=
  nofun

theorem tooDeep : OnlyRefuses whole (.error .tooDeep) :=
  nofun

theorem refusal (fault : EvaluationFault) : OnlyRefuses whole (.error (refusal whole fault)) :=
  fun _ h => ⟨fault, (Stop.failure.inj (Except.error.inj h)).symm⟩

theorem bind {outcome : Expansion} {next : List Char → Expansion} (h : OnlyRefuses whole outcome)
    (hnext : ∀ value, OnlyRefuses whole (next value)) : OnlyRefuses whole (outcome >>= next) := by
  cases outcome with
  | error stop => exact fun failure heq => h failure (congrArg Except.error (Except.error.inj heq))
  | ok value => exact hnext value

end OnlyRefuses

section Outcomes

variable {nested : List (List Char) → List Char → Expansion}
  (hnested : ∀ stack text, OnlyRefuses whole (nested stack text))

include hnested

theorem substitute_onlyRefuses (stack : List (List Char)) (body : List Char) :
    OnlyRefuses whole (marks.substitute whole nested stack body) := by
  rcases hbody : nested stack body with stop | key
  · rw [substitute_of_stop hbody, ← hbody]
    exact hnested stack body
  rw [substitute_of_key hbody]
  split
  · exact .refusal _
  · split
    · exact hnested _ _
    · split
      · exact .ok _
      · exact .refusal _

theorem scan_onlyRefuses (stack : List (List Char)) (text : List Char) :
    OnlyRefuses whole (marks.scan whole nested stack text) := by
  rw [scan]
  split
  · exact .ok _
  · split
    · exact .ok _
    · next body rest _ =>
      refine (substitute_onlyRefuses hnested stack body).bind fun inserted => ?_
      split
      · exact (scan_onlyRefuses stack rest).bind fun remainder => .ok _
      · exact .tooDeep
termination_by text.length

omit hnested in
/-- An expansion that fails says that the whole text cannot be evaluated. -/
theorem expand_onlyRefuses (depth : Nat) (stack : List (List Char)) (text : List Char) :
    OnlyRefuses whole (marks.expand whole depth stack text) := by
  induction depth generalizing stack text with
  | zero => exact .tooDeep
  | succ depth ih => exact scan_onlyRefuses ih stack text

end Outcomes

/-! ## Keys that come up -/

/-- With enough depth, the expansion of a text gives this. -/
def Gives (marks : Marks) (whole : String) (stack : List (List Char)) (text result : List Char) :
    Prop :=
  ∃ depth, marks.expand whole depth stack text = .ok result

theorem Gives.eq {stack : List (List Char)} {text result : List Char} {depth : Nat}
    (h : marks.Gives whole stack text result)
    (hsettled : Settled (marks.expand whole depth stack text)) :
    marks.expand whole depth stack text = .ok result := by
  obtain ⟨enough, henough⟩ := h
  rw [← henough]
  refine Settled.agree (fun _ _ hle => marks.expand_settled whole hle stack text) hsettled ?_
  exact henough ▸ Settled.settled_ok result

/-- A text gives one result at most. -/
theorem Gives.unique {stack : List (List Char)} {text result result' : List Char}
    (h : marks.Gives whole stack text result) (h' : marks.Gives whole stack text result') :
    result = result' := by
  obtain ⟨depth, hdepth⟩ := h'
  exact Except.ok.inj ((h.eq (hdepth ▸ Settled.settled_ok result')).symm.trans hdepth)

/-- A placeholder comes to something, with enough depth. -/
def Passes (marks : Marks) (whole : String) (stack : List (List Char)) (body : List Char) : Prop :=
  ∃ depth inserted, marks.substitute whole (marks.expand whole depth) stack body = .ok inserted

theorem Passes.eq {stack : List (List Char)} {body : List Char} {depth : Nat}
    (h : marks.Passes whole stack body)
    (hsettled : Settled (marks.substitute whole (marks.expand whole depth) stack body)) :
    ∃ inserted, marks.substitute whole (marks.expand whole depth) stack body = .ok inserted := by
  obtain ⟨enough, inserted, henough⟩ := h
  refine ⟨inserted, ?_⟩
  rw [← henough]
  exact Settled.agree
    (fun _ _ hle => substitute_settled (marks.expand_settled whole hle) stack body) hsettled
    (henough ▸ Settled.settled_ok inserted)

/-- While a text is expanded over a stack, a key comes onto the stack: in the body of the first
placeholder, as the key of that placeholder, in the value of its key or, if the placeholder comes to
something, in the rest of the text. -/
inductive Meets (marks : Marks) (whole : String) : List (List Char) → List Char → List Char → Prop
  | inBody {stack text before body rest key}
      (hfirst : marks.first? text = some (before, body, rest))
      (h : Meets marks whole stack body key) : Meets marks whole stack text key
  | here {stack text before body rest key value}
      (hfirst : marks.first? text = some (before, body, rest))
      (hkey : marks.Gives whole stack body key) (hnew : key ∉ stack)
      (hvalue : marks.value? key = some value) : Meets marks whole stack text key
  | inValue {stack text before body rest key value later}
      (hfirst : marks.first? text = some (before, body, rest))
      (hkey : marks.Gives whole stack body key) (hnew : key ∉ stack)
      (hvalue : marks.value? key = some value) (h : Meets marks whole (key :: stack) value later) :
      Meets marks whole stack text later
  | inRest {stack text before body rest key}
      (hfirst : marks.first? text = some (before, body, rest))
      (hpasses : marks.Passes whole stack body)
      (h : Meets marks whole stack rest key) : Meets marks whole stack text key

namespace Meets

variable {stack : List (List Char)} {text key : List Char}

/-- A key that comes up is not on the stack already. -/
theorem not_mem (h : marks.Meets whole stack text key) : key ∉ stack := by
  induction h with
  | inBody _ _ ih => exact ih
  | here _ _ hnew _ => exact hnew
  | inValue _ _ _ _ _ ih => exact fun hmem => ih (List.mem_cons_of_mem _ hmem)
  | inRest _ _ _ ih => exact ih

/-- No key comes up in a text without placeholders. -/
theorem not_of_none (hnone : marks.first? text = none) : ¬ marks.Meets whole stack text key := by
  intro h
  cases h with
  | inBody hfirst => cases hnone.symm.trans hfirst
  | here hfirst => cases hnone.symm.trans hfirst
  | inValue hfirst => cases hnone.symm.trans hfirst
  | inRest hfirst => cases hnone.symm.trans hfirst

end Meets

/-- The body of a placeholder comes to a key whose value is expanded, and this is that key or one that
comes up there. -/
def Unfolds (marks : Marks) (whole : String) (stack : List (List Char)) (body later : List Char) :
    Prop :=
  ∃ key value, marks.Gives whole stack body key ∧ key ∉ stack ∧ marks.value? key = some value ∧
    (later = key ∨ marks.Meets whole (key :: stack) value later)

/-- Where the keys come up that a text brings up. -/
theorem Meets.cases_of_first? {stack : List (List Char)} {text before body rest key : List Char}
    (h : marks.Meets whole stack text key) (hfirst : marks.first? text = some (before, body, rest)) :
    marks.Meets whole stack body key ∨ marks.Unfolds whole stack body key ∨
      (marks.Passes whole stack body ∧ marks.Meets whole stack rest key) := by
  cases h with
  | inBody hfirst' h =>
    cases hfirst.symm.trans hfirst'
    exact .inl h
  | here hfirst' hgives hnew hvalue =>
    cases hfirst.symm.trans hfirst'
    exact .inr (.inl ⟨_, _, hgives, hnew, hvalue, .inl rfl⟩)
  | inValue hfirst' hgives hnew hvalue h =>
    cases hfirst.symm.trans hfirst'
    exact .inr (.inl ⟨_, _, hgives, hnew, hvalue, .inr h⟩)
  | inRest hfirst' hpasses h =>
    cases hfirst.symm.trans hfirst'
    exact .inr (.inr ⟨hpasses, h⟩)

/-! ## Ending -/

/-- A placeholder brings up finitely many keys if the value that is expanded for it does: there is one
such value at most. -/
theorem finite_unfolds {stack : List (List Char)} {body : List Char}
    (h : ∀ key value, marks.Gives whole stack body key → key ∉ stack → marks.value? key = some value →
      {later | marks.Meets whole (key :: stack) value later}.Finite) :
    {later | marks.Unfolds whole stack body later}.Finite := by
  by_cases hkey : ∃ key value, marks.Gives whole stack body key ∧ key ∉ stack ∧
    marks.value? key = some value
  · obtain ⟨key, value, hgives, hnew, hvalue⟩ := hkey
    refine ((h key value hgives hnew hvalue).insert key).subset ?_
    rintro later ⟨key', value', hgives', -, hvalue', hlater⟩
    obtain rfl := hgives.unique hgives'
    obtain rfl := Option.some.inj (hvalue.symm.trans hvalue')
    exact hlater
  · refine Set.finite_empty.subset ?_
    rintro later ⟨key, value, hgives, hnew, hvalue, -⟩
    exact hkey ⟨key, value, hgives, hnew, hvalue⟩

/-- A placeholder is settled at some depth if its body is, and the value that is expanded for it. -/
theorem exists_settled_substitute {stack : List (List Char)} {body : List Char}
    (hbody : ∃ depth, Settled (marks.expand whole depth stack body))
    (hexpanded : ∀ key value, marks.Gives whole stack body key → key ∉ stack →
      marks.value? key = some value → ∃ depth, Settled (marks.expand whole depth (key :: stack) value)) :
    ∃ depth, Settled (marks.substitute whole (marks.expand whole depth) stack body) := by
  obtain ⟨depthBody, hbody⟩ := hbody
  by_cases hkey : ∃ key value, marks.Gives whole stack body key ∧ key ∉ stack ∧
    marks.value? key = some value
  · obtain ⟨key, value, hgives, hnew, hvalue⟩ := hkey
    obtain ⟨depthValue, hsettled⟩ := hexpanded key value hgives hnew hvalue
    refine ⟨max depthBody depthValue, settled_substitute_iff.2 ⟨?_, ?_⟩⟩
    · exact hbody.mono (marks.expand_settled whole (Nat.le_max_left _ _) stack body)
    · rintro key' hgives' - value' hvalue'
      obtain rfl := hgives.unique ⟨_, hgives'⟩
      obtain rfl := Option.some.inj (hvalue.symm.trans hvalue')
      exact hsettled.mono (marks.expand_settled whole (Nat.le_max_right _ _) _ _)
  · exact ⟨depthBody, settled_substitute_iff.2 ⟨hbody, fun key hgives hnew value hvalue =>
      absurd ⟨key, value, ⟨depthBody, hgives⟩, hnew, hvalue⟩ hkey⟩⟩

section Ending

variable (hopening : marks.opening ≠ [])

include hopening

/-- A text is settled at some depth if its first placeholder is and, should that come to something, the
rest of the text. -/
theorem exists_settled_of_first? {stack : List (List Char)} {text before body rest : List Char}
    (hfirst : marks.first? text = some (before, body, rest))
    (hplaceholder : ∃ depth, Settled (marks.substitute whole (marks.expand whole depth) stack body))
    (hrest : marks.Passes whole stack body → ∃ depth, Settled (marks.expand whole depth stack rest)) :
    ∃ depth, Settled (marks.expand whole depth stack text) := by
  obtain ⟨depthPlaceholder, hplaceholder⟩ := hplaceholder
  by_cases hpasses : marks.Passes whole stack body
  · obtain ⟨depthRest, hrest⟩ := hrest hpasses
    refine ⟨max depthPlaceholder depthRest + 1, (settled_scan_iff hopening hfirst).2 ⟨?_, ?_⟩⟩
    · exact hplaceholder.mono
        (substitute_settled (marks.expand_settled whole (Nat.le_max_left _ _)) stack body)
    · intro inserted _
      exact hrest.mono (marks.expand_settled whole
        (Nat.le_succ_of_le (Nat.le_max_right depthPlaceholder depthRest)) stack rest)
  · exact ⟨depthPlaceholder + 1, (settled_scan_iff hopening hfirst).2 ⟨hplaceholder,
      fun inserted hinserted => absurd ⟨depthPlaceholder, inserted, hinserted⟩ hpasses⟩⟩

/-- **A settled expansion has met finitely many keys.** -/
theorem finite_of_settled {depth : Nat} {stack : List (List Char)} {text : List Char}
    (h : Settled (marks.expand whole depth stack text)) :
    {key | marks.Meets whole stack text key}.Finite := by
  induction depth generalizing stack text with
  | zero => exact absurd rfl h
  | succ depth ih =>
    -- along the text: what follows a placeholder is scanned at the same depth
    replace h : Settled (marks.scan whole (marks.expand whole depth) stack text) := h
    induction hlength : text.length using Nat.strong_induction_on generalizing text with
    | h length ihtext =>
    rcases hfirst : marks.first? text with _ | ⟨before, body, rest⟩
    · exact Set.finite_empty.subset fun key hkey => hkey.not_of_none hfirst
    obtain ⟨hplaceholder, hremainder⟩ := (settled_scan_iff hopening hfirst).1 h
    obtain ⟨hbody, hvalue⟩ := settled_substitute_iff.1 hplaceholder
    have hinBody : {key | marks.Meets whole stack body key}.Finite := ih hbody
    have hunfolds : {key | marks.Unfolds whole stack body key}.Finite :=
      finite_unfolds fun key value hgives hnew hfound =>
        ih (hvalue key (hgives.eq hbody) hnew value hfound)
    have hinRest :
        {key | marks.Passes whole stack body ∧ marks.Meets whole stack rest key}.Finite := by
      by_cases hpasses : marks.Passes whole stack body
      · obtain ⟨inserted, hinserted⟩ := hpasses.eq hplaceholder
        exact (ihtext rest.length (hlength ▸ rest_length_lt hopening hfirst)
          (hremainder inserted hinserted) rfl).subset fun key hkey => hkey.2
      · exact Set.finite_empty.subset fun key hkey => hpasses hkey.1
    exact (hinBody.union (hunfolds.union hinRest)).subset fun key hkey => hkey.cases_of_first? hfirst

/-- **An expansion that meets keys of a finite set only is settled at some depth.** The set loses the
key of a placeholder while its value is expanded. -/
theorem exists_settled (keys : Finset (List Char)) {stack : List (List Char)} {text : List Char}
    (h : ∀ key, marks.Meets whole stack text key → key ∈ keys) :
    ∃ depth, Settled (marks.expand whole depth stack text) := by
  induction keys using Finset.strongInduction generalizing stack text with
  | H keys ih =>
  induction hlength : text.length using Nat.strong_induction_on generalizing text with
  | h length ihtext =>
  rcases hfirst : marks.first? text with _ | ⟨before, body, rest⟩
  · refine ⟨1, ?_⟩
    show Settled (marks.scan whole _ stack text)
    rw [scan_of_none hfirst]
    exact Settled.settled_ok text
  have hbody : ∃ depth, Settled (marks.expand whole depth stack body) :=
    ihtext body.length (hlength ▸ body_length_lt hopening hfirst)
      (fun key hkey => h key (.inBody hfirst hkey)) rfl
  refine exists_settled_of_first? hopening hfirst (exists_settled_substitute hbody ?_) ?_
  · -- what comes up in the value is new, as its key is on the stack
    intro key value hgives hnew hvalue
    refine ih (keys.erase key) (Finset.erase_ssubset (h key (.here hfirst hgives hnew hvalue))) ?_
    exact fun later hlater => Finset.mem_erase.2
      ⟨fun heq => hlater.not_mem (heq ▸ List.mem_cons_self),
        h later (.inValue hfirst hgives hnew hvalue hlater)⟩
  · intro hpasses
    exact ihtext rest.length (hlength ▸ rest_length_lt hopening hfirst)
      (fun key hkey => h key (.inRest hfirst hpasses hkey)) rfl

end Ending

end Marks

namespace Settings

variable {settings : Settings} {text : String}

/-! ## Texts that have an expansion -/

/-- With enough depth, a text has an expansion or fails to be evaluated. -/
def ExpansionEnds (settings : Settings) (text : String) : Prop :=
  ∃ depth, (∃ result, settings.expand depth text = .ok result) ∨
    ∃ fault, settings.expand depth text = .error (Marks.refusal text fault)

theorem expansionEnds_iff_settled :
    settings.ExpansionEnds text ↔
      ∃ depth, Settled (settings.marks.expand text depth [] text.toList) := by
  refine exists_congr fun depth => ?_
  have honly : Marks.OnlyRefuses text (settings.marks.expand text depth [] text.toList) :=
    Marks.expand_onlyRefuses depth [] text.toList
  unfold expand
  rcases houtcome : settings.marks.expand text depth [] text.toList with (failure | _) | result
  · obtain ⟨fault, rfl⟩ := honly failure houtcome
    exact ⟨fun _ => Settled.settled_failure _, fun _ => .inr ⟨fault, rfl⟩⟩
  · exact ⟨fun h => by simp [Except.map, Marks.refusal] at h, fun h => absurd rfl h⟩
  · exact ⟨fun _ => Settled.settled_ok _, fun _ => .inl ⟨_, rfl⟩⟩

theorem opening_ne_nil (h : settings.validated = .ok settings) : settings.marks.opening ≠ [] := by
  intro heq
  have hempty : settings.opening = "" := String.toList_eq_nil_iff.1 heq
  simp [validated, hempty] at h

/-- **The expansion of a text ends exactly if finitely many keys come onto the stack.** -/
theorem expansionEnds_iff (h : settings.validated = .ok settings) (text : String) :
    settings.ExpansionEnds text ↔ {key | settings.marks.Meets text [] text.toList key}.Finite := by
  rw [expansionEnds_iff_settled]
  constructor
  · rintro ⟨depth, hsettled⟩
    exact Marks.finite_of_settled (opening_ne_nil h) hsettled
  · intro hfinite
    exact Marks.exists_settled (opening_ne_nil h) hfinite.toFinset fun key hkey =>
      hfinite.mem_toFinset.2 hkey

end Settings

/-! ## A text without end -/

/-- Three properties whose values hold marks that belong to no placeholder there. -/
def growing : Settings where
  properties := .ofList [("q", "$\x7b"), ("o", "$\x7b:$\x7bo\x7da"), ("c", "$\x7bq\x7dc\x7d\x7d")]

/-- Finitely many keys come up in a text of these settings that ends. -/
theorem growing_meets_finite :
    growing.validated = .ok growing ∧
      {key | growing.marks.Meets "$\x7bc\x7d" [] "$\x7bc\x7d".toList key}.Finite :=
  ⟨rfl, (Settings.expansionEnds_iff rfl _).1 ⟨4, .inl ⟨"$\x7bc\x7d\x7d", by cbv⟩⟩⟩

/-- The body of a placeholder that comes to a key with a longer placeholder as its default. -/
def grownBody (n : Nat) : List Char :=
  ':' :: '$' :: '{' :: 'o' :: '}' :: (List.replicate n 'a' ++ ['$', '{', 'c', '}'])

/-- The placeholder with this body. -/
def grownText (n : Nat) : List Char :=
  '$' :: '{' :: (grownBody n ++ ['}'])

namespace Growing

variable {whole : String} {depth n : Nat} {stack : List (List Char)} {text : List Char}

theorem body?_open :
    growing.marks.body? depth ('$' :: '{' :: text) =
      (growing.marks.body? (depth + 1) text).map fun (body, beyond) =>
        ('$' :: '{' :: body, beyond) := by
  rw [Marks.body?]
  rfl

theorem body?_close :
    growing.marks.body? (depth + 1) ('}' :: text) =
      (growing.marks.body? depth text).map fun (body, beyond) => ('}' :: body, beyond) := by
  rw [Marks.body?]
  rfl

theorem body?_end : growing.marks.body? 0 ('}' :: text) = some ([], text) := by
  rw [Marks.body?]
  rfl

theorem body?_replicate :
    growing.marks.body? depth (List.replicate n 'a' ++ text) =
      (growing.marks.body? depth text).map fun (body, beyond) =>
        (List.replicate n 'a' ++ body, beyond) := by
  induction n with
  | zero => simp
  | succ n ih =>
    rw [List.replicate_succ, List.cons_append, Marks.body?_of_plain rfl rfl, ih, Option.map_map]
    rfl

theorem cutAt_replicate :
    Text.cutAt growing.marks.opening (List.replicate n 'a' ++ '$' :: '{' :: text) =
      some (List.replicate n 'a', text) := by
  induction n with
  | zero => rfl
  | succ n ih =>
    have hstep : Text.cutAt growing.marks.opening
        ('a' :: (List.replicate n 'a' ++ '$' :: '{' :: text)) =
          (Text.cutAt growing.marks.opening (List.replicate n 'a' ++ '$' :: '{' :: text)).map
            fun (before, after) => ('a' :: before, after) := rfl
    rw [List.replicate_succ, List.cons_append, hstep, ih]
    rfl

theorem first?_grownText : growing.marks.first? (grownText n) = some ([], grownBody n, []) := by
  refine Marks.first?_eq_some_iff.2 ⟨grownBody n ++ ['}'], rfl, ?_⟩
  show growing.marks.body? 0 (':' :: '$' :: '{' :: 'o' :: '}' ::
    (List.replicate n 'a' ++ ['$', '{', 'c', '}'] ++ ['}'])) = _
  rw [Marks.body?_of_plain rfl rfl, body?_open, Marks.body?_of_plain rfl rfl, body?_close,
    List.append_assoc, body?_replicate]
  show Option.map _ (Option.map _ (Option.map _ (Option.map _ (Option.map _
    (growing.marks.body? 0 ['$', '{', 'c', '}', '}']))))) = _
  rw [body?_open, Marks.body?_of_plain rfl rfl, body?_close, body?_end]
  rfl

theorem first?_grownBody :
    growing.marks.first? (grownBody n) =
      some ([':'], ['o'], List.replicate n 'a' ++ ['$', '{', 'c', '}']) := by
  refine Marks.first?_eq_some_iff.2 ⟨'o' :: '}' :: _, rfl, ?_⟩
  rw [Marks.body?_of_plain rfl rfl, body?_end]
  rfl

theorem first?_replicate :
    growing.marks.first? (List.replicate n 'a' ++ ['$', '{', 'c', '}']) =
      some (List.replicate n 'a', ['c'], []) :=
  Marks.first?_eq_some_iff.2 ⟨['c', '}'], cutAt_replicate, by cbv⟩

theorem opening_ne_nil : growing.marks.opening ≠ [] :=
  nofun

/-- `o` opens a placeholder and one more inside it, and closes the inner one only. -/
theorem substitute_o (hnew : ['o'] ∉ stack) :
    growing.marks.substitute whole (growing.marks.expand whole (depth + 1)) stack ['o'] =
      .ok ['$', '{', ':', '$', '{', 'o', '}', 'a'] := by
  rw [Marks.substitute_of_value (Marks.expand_of_none depth (by cbv)) hnew rfl]
  exact Marks.expand_of_none depth (by cbv)

/-- `c` is the text of a placeholder and one closing mark more. -/
theorem substitute_c (hc : ['c'] ∉ stack) (hq : ['q'] ∉ stack) :
    growing.marks.substitute whole (growing.marks.expand whole (depth + 2)) stack ['c'] =
      .ok ['$', '{', 'c', '}', '}'] := by
  rw [Marks.substitute_of_value (Marks.expand_of_none (depth + 1) (by cbv)) hc rfl]
  show growing.marks.scan whole _ _ ['$', '{', 'q', '}', 'c', '}', '}'] = _
  have hfirst : growing.marks.first? ['$', '{', 'q', '}', 'c', '}', '}'] =
      some ([], ['q'], ['c', '}', '}']) := by cbv
  have hq' : ['q'] ∉ ['c'] :: stack := by simpa using hq
  rw [Marks.scan_of_first? opening_ne_nil hfirst,
    Marks.substitute_of_value (Marks.expand_of_none depth (by cbv)) hq' rfl,
    Marks.expand_of_none depth (by cbv), Marks.scan_of_none (by cbv)]
  rfl

/-- The body comes to a key whose default is the next placeholder. -/
theorem expand_grownBody (ho : ['o'] ∉ stack) (hc : ['c'] ∉ stack) (hq : ['q'] ∉ stack) :
    growing.marks.expand whole (depth + 3) stack (grownBody n) =
      .ok (':' :: grownText (n + 1)) := by
  show growing.marks.scan whole _ _ (grownBody n) = _
  rw [Marks.scan_of_first? opening_ne_nil first?_grownBody, substitute_o ho,
    Marks.scan_of_first? opening_ne_nil first?_replicate, substitute_c hc hq,
    Marks.scan_of_none (by cbv)]
  show Except.ok _ = _
  simp [grownText, grownBody, List.replicate_succ]

theorem value?_grownText : growing.marks.value? (':' :: grownText n) = some (grownText n) := by
  have hnone : growing.marks.properties.find? (String.ofList (':' :: grownText n)) = none := by
    show growing.properties.entries.lookup _ = none
    rw [List.lookup_eq_none_iff]
    intro entry hentry
    have hname : entry.1.toList.head? ≠ some ':' := by
      revert entry
      decide
    rw [bne_iff_ne]
    refine fun heq => hname ?_
    rw [← heq, String.toList_ofList]
    rfl
  unfold Marks.value?
  rw [hnone]
  rfl

theorem length_grownText : (grownText n).length = n + 12 := by
  simp [grownText, grownBody]

/-- The expansion of these placeholders is always stopped, if only keys of earlier ones are on the
stack. -/
theorem expand_grownText (hstack : ∀ key ∈ stack, ∃ m ≤ n, key = ':' :: grownText m) :
    growing.marks.expand whole depth stack (grownText n) = .error .tooDeep := by
  induction depth generalizing n stack with
  | zero => rfl
  | succ depth ih =>
    have hsubstitute : growing.marks.substitute whole (growing.marks.expand whole depth) stack
        (grownBody n) = .error .tooDeep := by
      have hshort : ∀ c, [c] ∉ stack := fun c hmem => by
        obtain ⟨m, -, heq⟩ := hstack _ hmem
        simp [grownText] at heq
      have hnew : ':' :: grownText (n + 1) ∉ stack := fun hmem => by
        obtain ⟨m, hle, heq⟩ := hstack _ hmem
        have hlength := congrArg List.length (List.cons.inj heq).2
        rw [length_grownText, length_grownText] at hlength
        omega
      by_cases hbody : Settled (growing.marks.expand whole depth stack (grownBody n))
      · have hkey : growing.marks.expand whole depth stack (grownBody n) =
            .ok (':' :: grownText (n + 1)) :=
          Marks.Gives.eq ⟨3, expand_grownBody (hshort 'o') (hshort 'c') (hshort 'q')⟩ hbody
        rw [Marks.substitute_of_value hkey hnew value?_grownText]
        refine ih fun key hmem => ?_
        rcases List.mem_cons.1 hmem with rfl | hmem
        · exact ⟨n + 1, Nat.le_refl _, rfl⟩
        · obtain ⟨m, hle, heq⟩ := hstack key hmem
          exact ⟨m, Nat.le_succ_of_le hle, heq⟩
      · exact Marks.substitute_of_stop (not_not.1 hbody)
    show growing.marks.scan whole _ stack (grownText n) = _
    rw [Marks.scan_of_first? opening_ne_nil first?_grownText, hsubstitute]
    rfl

end Growing

/-- **Accepted settings may expand a text for ever.** -/
theorem growing_not_expansionEnds :
    growing.validated = .ok growing ∧ ¬ growing.ExpansionEnds "$\x7b:$\x7bo\x7d$\x7bc\x7d\x7d" := by
  refine ⟨rfl, ?_⟩
  rw [Settings.expansionEnds_iff_settled]
  rintro ⟨depth, hsettled⟩
  exact hsettled (Growing.expand_grownText (n := 0) nofun)

end Injector
