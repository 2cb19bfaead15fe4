import Injector.Proofs.Values.Sameness
import Mathlib.Data.List.Induction

/-!
# What sets and maps are made of

A set is collected by adding one element after the other, a map by binding one key after the other. What
comes of it is told by the whole sequence at once.

* The set of a sequence is the sequence without every value that is the same as an earlier one
  (`Value.setOf_eq`).
* The map of a sequence of entries has their keys, each where it first comes, with the value of the last
  entry whose key is taken for it (`Value.mapOf_eq_map_iff`). A proper key is taken for the one that is the
  same (`Value.Gathers.placeOf_eq_some_iff`).
-/

namespace Injector

namespace Value

/-! ## Sets -/

/-- The values of a sequence that are the same as no earlier one, where some values come before it. -/
def firstsAfter (earlier : List Value) : List Value → List Value
  | [] => []
  | item :: rest =>
    if item.isAmong earlier then firstsAfter (earlier ++ [item]) rest
    else item :: firstsAfter (earlier ++ [item]) rest

/-- The values of a sequence that are the same as no earlier one. -/
def firsts (items : List Value) : List Value :=
  firstsAfter [] items

theorem isAmong_append (value : Value) (items others : List Value) :
    value.isAmong (items ++ others) = (value.isAmong items || value.isAmong others) :=
  List.any_append

/-- Whether an element was left out when it was added makes no difference to what is among them. -/
theorem isAmong_addItem (value item : Value) (items : List Value) :
    value.isAmong (addItem items item) = value.isAmong (items ++ [item]) := by
  rw [addItem]
  split
  · next hold =>
    rw [isAmong_append, Bool.eq_iff_iff, Bool.or_eq_true, or_iff_left_of_imp]
    intro hsame
    obtain ⟨old, hmem, hitem⟩ := List.any_eq_true.mp hold
    have hvalue : value.same item = true := by simpa [isAmong] using hsame
    exact List.any_eq_true.mpr ⟨old, hmem, same_trans hvalue hitem⟩
  · rfl

theorem foldl_addItem {items kept earlier : List Value}
    (h : ∀ value : Value, value.isAmong kept = value.isAmong earlier) :
    items.foldl addItem kept = kept ++ firstsAfter earlier items := by
  induction items generalizing kept earlier with
  | nil => exact (List.append_nil kept).symm
  | cons item rest ih =>
    have hnext (value : Value) :
        value.isAmong (addItem kept item) = value.isAmong (earlier ++ [item]) := by
      rw [isAmong_addItem, isAmong_append, h value, ← isAmong_append]
    rw [List.foldl_cons, ih hnext, firstsAfter, addItem, h item]
    split
    · rfl
    · exact List.append_assoc _ _ _

theorem firsts_eq_foldl (items : List Value) : firsts items = items.foldl addItem [] :=
  (@foldl_addItem items [] [] fun _ => rfl).symm

/-- **A set is a sequence without every value that is the same as an earlier one.** -/
theorem setOf_eq (items : List Value) : setOf items = set (firsts items) := by
  rw [setOf, firsts_eq_foldl]

theorem firsts_concat (items : List Value) (item : Value) :
    firsts (items ++ [item]) = addItem (firsts items) item := by
  rw [firsts_eq_foldl, firsts_eq_foldl, List.foldl_append]
  rfl

theorem isAmong_firsts (value : Value) (items : List Value) :
    value.isAmong (firsts items) = value.isAmong items := by
  induction items using List.reverseRecOn with
  | nil => rfl
  | append_singleton items item ih =>
    rw [firsts_concat, isAmong_addItem, isAmong_append, isAmong_append, ih]

theorem pairwise_firsts (items : List Value) :
    (firsts items).Pairwise fun earlier later => later.same earlier = false := by
  induction items using List.reverseRecOn with
  | nil => exact .nil
  | append_singleton items item ih =>
    rw [firsts_concat, addItem]
    split
    · exact ih
    · next hnew =>
      refine List.pairwise_append.mpr ⟨ih, List.pairwise_singleton _ _, fun old hold _ hmem => ?_⟩
      rw [List.mem_singleton.mp hmem]
      exact Bool.eq_false_iff.mpr fun hsame => hnew (List.any_eq_true.mpr ⟨old, hold, hsame⟩)

/-! ## Maps -/

/-- The place of the key, among others, that a key is taken for: the first that it is the same as. -/
def placeOf (keys : List Value) (key : Value) : Option Nat :=
  keys.findIdx? key.same

/-- A key that is among others has a place there, and keeps it if there are more of them. -/
theorem exists_placeOf {keys : List Value} {key : Value} (h : key.isAmong keys = true)
    (more : List Value) :
    ∃ i < keys.length, placeOf keys key = some i ∧ placeOf (keys ++ more) key = some i := by
  obtain ⟨i, hi⟩ := Option.isSome_iff_exists.mp (List.findIdx?_isSome.trans h)
  refine ⟨i, (List.findIdx?_eq_some_iff_getElem.mp hi).1, hi, ?_⟩
  rw [placeOf, List.findIdx?_append, hi]
  rfl

/-- The bindings that come of entries. -/
structure Gathers (entries bindings : List (Value × Value)) : Prop where
  /-- There is a binding for every key, where it first comes. -/
  keys : bindings.map Prod.fst = firsts (entries.map Prod.fst)
  /-- A binding has the value of the last entry whose key is taken for its own. -/
  last : ∀ i (hi : i < bindings.length), ∃ before key behind,
    entries = before ++ (key, bindings[i].2) :: behind ∧
      placeOf (bindings.map Prod.fst) key = some i ∧
        ∀ later ∈ behind, placeOf (bindings.map Prod.fst) later.1 ≠ some i

theorem keys_addEntry (key value : Value) (bindings : List (Value × Value)) :
    (addEntry key value bindings).map Prod.fst = addItem (bindings.map Prod.fst) key := by
  induction bindings with
  | nil => rfl
  | cons binding rest ih =>
    obtain ⟨other, old⟩ := binding
    rw [addEntry, addItem, isAmong, List.map_cons, List.any_cons]
    split
    · next hsame => rw [hsame]; rfl
    · next hdifferent =>
      rw [List.map_cons, ih, Bool.eq_false_iff.mpr hdifferent, Bool.false_or, addItem, isAmong]
      split <;> rfl

/-- What is bound at the place of a key changes, and nothing else. -/
theorem value_addEntry (key value : Value) (bindings : List (Value × Value)) (i : Nat) :
    (addEntry key value bindings)[i]?.map Prod.snd =
      if placeOf ((addEntry key value bindings).map Prod.fst) key = some i then some value
      else bindings[i]?.map Prod.snd := by
  induction bindings generalizing i with
  | nil =>
    cases i <;> simp [addEntry, placeOf, List.findIdx?_cons, same_refl]
  | cons binding rest ih =>
    obtain ⟨other, old⟩ := binding
    rw [addEntry]
    split
    · next hsame => cases i <;> simp [placeOf, List.findIdx?_cons, hsame]
    · next hdifferent =>
      cases i with
      | zero => simp [placeOf, List.findIdx?_cons, hdifferent]
      | succ i =>
        rw [List.getElem?_cons_succ, ih, List.getElem?_cons_succ]
        simp [placeOf, List.findIdx?_cons, hdifferent]

namespace Gathers

variable {entries bindings : List (Value × Value)}

theorem nil : Gathers [] [] :=
  ⟨rfl, nofun⟩

/-- Binding the key of one more entry. -/
theorem concat (h : Gathers entries bindings) (key value : Value) :
    Gathers (entries ++ [(key, value)]) (addEntry key value bindings) := by
  have hkeys := keys_addEntry key value bindings
  refine ⟨?_, fun i hi => ?_⟩
  · rw [hkeys, h.keys, List.map_append, List.map_singleton, firsts_concat]
  have hvalue := value_addEntry key value bindings i
  rw [List.getElem?_eq_getElem hi, Option.map_some] at hvalue
  split at hvalue
  · next hplace =>
    refine ⟨entries, key, [], ?_, hplace, nofun⟩
    rw [Option.some.inj hvalue]
  · next hplace =>
    obtain ⟨binding, hbinding, heq⟩ := Option.map_eq_some_iff.mp hvalue.symm
    obtain ⟨hi', rfl⟩ := List.getElem?_eq_some_iff.mp hbinding
    obtain ⟨before, other, behind, hentries, hown, hlater⟩ := h.last i hi'
    -- the keys of the entries that are there have their places already
    have hsettled (entry : Value × Value) (hentry : entry ∈ entries) :
        placeOf ((addEntry key value bindings).map Prod.fst) entry.1 =
          placeOf (bindings.map Prod.fst) entry.1 := by
      have hamong : entry.1.isAmong (bindings.map Prod.fst) = true := by
        rw [h.keys, isAmong_firsts]
        exact List.any_eq_true.mpr ⟨entry.1, List.mem_map_of_mem hentry, same_refl _⟩
      rw [hkeys, addItem]
      split
      · rfl
      · obtain ⟨j, _, hj, hj'⟩ := exists_placeOf hamong [key]
        rw [hj, hj']
    refine ⟨before, other, behind ++ [(key, value)], ?_, ?_, fun later hmem => ?_⟩
    · rw [← heq, hentries, List.append_assoc, List.cons_append]
    · rw [hsettled (other, bindings[i].2) (by rw [hentries]; simp), hown]
    · rcases List.mem_append.mp hmem with hbehind | hnew
      · rw [hsettled later (by rw [hentries]; simp [hbehind])]
        exact hlater later hbehind
      · rw [List.mem_singleton.mp hnew]
        exact hplace

/-- Entries come to one sequence of bindings. -/
theorem unique {others : List (Value × Value)} (h : Gathers entries bindings)
    (h' : Gathers entries others) : bindings = others := by
  have hkeys : bindings.map Prod.fst = others.map Prod.fst := h.keys.trans h'.keys.symm
  have hlength : bindings.length = others.length := by
    simpa using congrArg List.length hkeys
  refine List.ext_getElem hlength fun i hi hi' => Prod.ext ?_ ?_
  · simpa [hi, hi'] using congrArg (fun keys => keys[i]?) hkeys
  -- both values are that of the last entry whose key is taken for this one
  have hfound {bound : List (Value × Value)} (hbound : Gathers entries bound) (hi : i < bound.length) :
      ∃ key, entries.reverse.find? (fun entry =>
        placeOf (bound.map Prod.fst) entry.1 == some i) = some (key, bound[i].2) := by
    obtain ⟨before, key, behind, hentries, hown, hlater⟩ := hbound.last i hi
    refine ⟨key, List.find?_eq_some_iff_append.mpr ⟨by simpa using hown, behind.reverse,
      before.reverse, by rw [hentries]; simp, fun later hmem => ?_⟩⟩
    simpa using hlater later (List.mem_reverse.mp hmem)
  obtain ⟨key, hkey⟩ := hfound h hi
  obtain ⟨key', hkey'⟩ := hfound h' hi'
  rw [hkeys, hkey'] at hkey
  exact (congrArg Prod.snd (Option.some.inj hkey)).symm

/-- A proper key is taken for the one that it is the same as. -/
theorem placeOf_eq_some_iff (h : Gathers entries bindings) {key : Value}
    (hproper : key.isProper = true) {i : Nat} (hi : i < bindings.length) :
    placeOf (bindings.map Prod.fst) key = some i ↔ key.same bindings[i].1 = true := by
  rw [placeOf, List.findIdx?_eq_some_iff_getElem]
  constructor
  · rintro ⟨_, hsame, _⟩
    simpa using hsame
  · intro hsame
    refine ⟨by simpa using hi, by simpa using hsame, fun j hj hother => ?_⟩
    have hapart := List.pairwise_iff_getElem.mp (h.keys ▸ pairwise_firsts (entries.map Prod.fst))
      j i (by simp; omega) (by simpa using hi) hj
    have hturned := same_trans (same_symm hproper hsame) hother
    simp only [List.getElem_map] at hapart hturned
    rw [hturned] at hapart
    cases hapart

end Gathers

/-- **A map has the keys of its entries, each where it first comes, with the value of the last entry whose
key is taken for it.** -/
theorem mapOf_eq_map_iff {entries bindings : List (Value × Value)} :
    mapOf entries = map bindings ↔ Gathers entries bindings := by
  have hgathers : Gathers entries
      (entries.foldl (fun collected entry => addEntry entry.1 entry.2 collected) []) := by
    induction entries using List.reverseRecOn with
    | nil => exact .nil
    | append_singleton entries entry ih =>
      rw [List.foldl_append]
      exact ih.concat entry.1 entry.2
  constructor
  · intro h
    exact map.inj h ▸ hgathers
  · intro h
    exact congrArg map (hgathers.unique h)

/-- The key of a new binding is bound behind those that are there. -/
theorem addEntry_of_not_same {key value : Value} {bindings : List (Value × Value)}
    (h : ∀ binding ∈ bindings, key.same binding.1 = false) :
    addEntry key value bindings = bindings ++ [(key, value)] := by
  induction bindings with
  | nil => rfl
  | cons binding rest ih =>
    have hfirst : key.same binding.1 = false := h binding List.mem_cons_self
    rw [addEntry, if_neg (by simp [hfirst]), ih fun other hother => h other (List.mem_cons_of_mem _ hother)]
    rfl

/-- A map of entries of which no key is the same as an earlier one has these entries. -/
theorem mapOf_of_pairwise {entries : List (Value × Value)}
    (h : entries.Pairwise fun earlier later => later.1.same earlier.1 = false) :
    mapOf entries = map entries := by
  refine congrArg map ?_
  induction entries using List.reverseRecOn with
  | nil => rfl
  | append_singleton entries entry ih =>
    obtain ⟨hentries, -, hlast⟩ := List.pairwise_append.mp h
    rw [List.foldl_append, ih hentries]
    exact addEntry_of_not_same fun binding hbinding => hlast binding hbinding entry (List.mem_singleton_self _)

/-- The key that comes first and the value that comes last. -/
example : mapOf [(text "a", bool true), (text "b", null), (text "a", bool false)] =
    map [(text "a", bool false), (text "b", null)] := by
  cbv

end Value

end Injector
