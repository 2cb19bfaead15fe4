import Injector.Value.Equality
import Mathlib.Data.List.Forall2
import Mathlib.Data.List.Perm.Subperm

/-!
# Sameness of values

To be the same is an equivalence of values, and values that are the same have the same digest. That a
value is the same as itself, and the digest, are a matter of going through both values side by side. The
rest is about collections whose order does not count: sets, maps and property tables.

If two sets have the same size and each element of the first is the same as one of the second, then the
second can be put in an order in which it is element by element the same as the first
(`exists_perm_forall₂`). This rests on the first holding no element twice, so it is stated for values
whose sets hold no element twice and whose maps no key, at any depth (`ProperValue`). What is collected
into a set or a map is of that kind (`isProper_setOf`, `isProper_mapOf`).
-/

namespace Injector

/-! ## Matching lists in any order -/

section Matching

variable {α : Type} {R : α → α → Prop}

/-- A member can be put first. -/
theorem exists_perm_cons_of_mem {x : α} {xs : List α} (h : x ∈ xs) : ∃ rest, (x :: rest).Perm xs := by
  obtain ⟨before, after, rfl⟩ := List.append_of_mem h
  exact ⟨before ++ after, List.perm_middle.symm⟩

/-- **If each member of a list is related to one of a list that is not longer, and no two members to the
same one, then the second list matches the first in some order.** -/
theorem exists_perm_forall₂ :
    ∀ {xs ys : List α}, ys.length ≤ xs.length → (∀ x ∈ xs, ∃ y ∈ ys, R x y) →
      xs.Pairwise (fun x x' => ∀ y ∈ ys, R x y → ¬ R x' y) →
      ∃ zs, zs.Perm ys ∧ List.Forall₂ R xs zs
  | [], ys, hlength, _, _ => by
    obtain rfl := List.length_eq_zero_iff.mp (Nat.le_zero.mp hlength)
    exact ⟨[], .refl _, .nil⟩
  | x :: xs, ys, hlength, hmem, hapart => by
    obtain ⟨y, hy, hxy⟩ := hmem x List.mem_cons_self
    obtain ⟨rest, hrest⟩ := exists_perm_cons_of_mem hy
    obtain ⟨hfirst, hothers⟩ := List.pairwise_cons.mp hapart
    have hlength' : rest.length ≤ xs.length := by
      have := hrest.length_eq
      simp only [List.length_cons] at this hlength
      omega
    -- the member that is matched with the first is not wanted by the others
    have hmem' : ∀ x' ∈ xs, ∃ y' ∈ rest, R x' y' := by
      intro x' hx'
      obtain ⟨y', hy', hxy'⟩ := hmem x' (List.mem_cons_of_mem _ hx')
      rcases List.mem_cons.mp (hrest.mem_iff.mpr hy') with rfl | hin
      · exact absurd hxy' (hfirst x' hx' y' hy hxy)
      · exact ⟨y', hin, hxy'⟩
    have hapart' : xs.Pairwise (fun x x' => ∀ y ∈ rest, R x y → ¬ R x' y) :=
      hothers.imp fun h y' hy' => h y' (hrest.mem_iff.mp (List.mem_cons_of_mem _ hy'))
    obtain ⟨zs, hperm, hzs⟩ := exists_perm_forall₂ hlength' hmem' hapart'
    exact ⟨y :: zs, (hperm.cons y).trans hrest, .cons hxy hzs⟩

/-- What is related element by element over a list in between is related if its elements are. -/
theorem forall₂_trans :
    ∀ {xs ys zs : List α}, (∀ x ∈ xs, ∀ y z, R x y → R y z → R x z) → List.Forall₂ R xs ys →
      List.Forall₂ R ys zs → List.Forall₂ R xs zs
  | _, _, _, _, .nil, .nil => .nil
  | _, _, _, h, .cons hxy hrest, .cons hyz hrest' =>
    .cons (h _ List.mem_cons_self _ _ hxy hyz)
      (forall₂_trans (fun x hx => h x (List.mem_cons_of_mem _ hx)) hrest hrest')

/-- What is related element by element is so in every way in which the elements of the first list are. -/
theorem forall₂_of_mem {S : α → α → Prop} :
    ∀ {xs ys : List α}, (∀ x ∈ xs, ∀ y, R x y → S x y) → List.Forall₂ R xs ys → List.Forall₂ S xs ys
  | _, _, _, .nil => .nil
  | _, _, h, .cons hxy hrest =>
    .cons (h _ List.mem_cons_self _ hxy)
      (forall₂_of_mem (fun x hx => h x (List.mem_cons_of_mem _ hx)) hrest)

theorem forall₂_turned {xs ys : List α} (h : ∀ x ∈ xs, ∀ y, R x y → R y x)
    (hrel : List.Forall₂ R xs ys) : List.Forall₂ R ys xs :=
  (forall₂_of_mem (S := fun x y => R y x) h hrel).flip

theorem exists_mem_of_forall₂ {xs ys : List α} {y : α} (h : List.Forall₂ R xs ys) (hy : y ∈ ys) :
    ∃ x ∈ xs, R x y := by
  induction h with
  | nil => cases hy
  | cons hxy _ ih =>
    rcases List.mem_cons.mp hy with rfl | hrest
    · exact ⟨_, List.mem_cons_self, hxy⟩
    · obtain ⟨x, hx, hrel⟩ := ih hrest
      exact ⟨x, List.mem_cons_of_mem _ hx, hrel⟩

end Matching

/-! ## Property tables -/

namespace Table

/-- **Property tables are the same exactly if they have the same entries in whatever order.** -/
theorem same_iff_perm {first second : Table String} :
    first.same second = true ↔ first.entries.Perm second.entries := by
  unfold Table.same Table.size
  simp only [Bool.and_eq_true, beq_iff_eq, List.all_eq_true, find?_eq_some_iff_mem]
  constructor
  · rintro ⟨hlength, hmem⟩
    exact (first.nodup_entries.subperm fun entry hentry => hmem entry hentry).perm_of_length_le (Nat.le_of_eq hlength.symm)
  · intro hperm
    exact ⟨hperm.length_eq, fun entry hentry => hperm.subset hentry⟩

end Table

namespace Value

/-! ## Parts -/

/-- The values that a collection holds. -/
def parts : Value → List Value
  | array _ items => items
  | list items => items
  | set items => items
  | map entries => entries.flatMap fun entry => [entry.1, entry.2]
  | _ => []

theorem key_mem_parts {entries : List (Value × Value)} {entry : Value × Value} (h : entry ∈ entries) :
    entry.1 ∈ (map entries).parts :=
  List.mem_flatMap.mpr ⟨entry, h, List.mem_cons_self⟩

theorem value_mem_parts {entries : List (Value × Value)} {entry : Value × Value} (h : entry ∈ entries) :
    entry.2 ∈ (map entries).parts :=
  List.mem_flatMap.mpr ⟨entry, h, List.mem_cons_of_mem _ List.mem_cons_self⟩

theorem sizeOf_lt_of_mem_parts {value part : Value} (h : part ∈ value.parts) :
    sizeOf part < sizeOf value := by
  cases value with
  | array _ items | list items | set items =>
    have hlt : sizeOf part < sizeOf items := List.sizeOf_lt_of_mem h
    simp only [array.sizeOf_spec, list.sizeOf_spec, set.sizeOf_spec]
    omega
  | map entries =>
    obtain ⟨⟨key, value⟩, hentry, hpart⟩ := List.mem_flatMap.mp h
    have hlt := List.sizeOf_lt_of_mem hentry
    simp only [Prod.mk.sizeOf_spec] at hlt
    simp only [map.sizeOf_spec]
    rcases List.mem_pair.mp hpart with rfl | rfl <;> omega
  | _ => cases h

/-- **What holds of a value if it holds of its parts holds of all values.** -/
@[elab_as_elim]
theorem induction_parts {P : Value → Prop}
    (step : ∀ value : Value, (∀ part ∈ value.parts, P part) → P value) (value : Value) : P value :=
  step value fun part _ => induction_parts step part
termination_by sizeOf value
decreasing_by exact sizeOf_lt_of_mem_parts ‹_›

/-! ## What being the same asks for -/

theorem sameItems_iff {xs ys : List Value} :
    sameItems xs ys = true ↔ List.Forall₂ (fun x y => x.same y = true) xs ys := by
  induction xs generalizing ys with
  | nil => cases ys <;> simp [sameItems]
  | cons x xs ih => cases ys <;> simp [sameItems, ih]

theorem itemsAmong_iff {xs ys : List Value} :
    itemsAmong xs ys = true ↔ ∀ x ∈ xs, ∃ y ∈ ys, x.same y = true := by
  induction xs with
  | nil => simp [itemsAmong]
  | cons x xs ih => simp [itemsAmong, ih]

/-- Two entries have the same key and the same value. -/
def SameEntry (first second : Value × Value) : Prop :=
  first.1.same second.1 = true ∧ first.2.same second.2 = true

theorem entriesAmong_iff {xs ys : List (Value × Value)} :
    entriesAmong xs ys = true ↔ ∀ x ∈ xs, ∃ y ∈ ys, SameEntry x y := by
  induction xs with
  | nil => simp [entriesAmong]
  | cons x xs ih =>
    rw [entriesAmong, Bool.and_eq_true, ih, List.any_eq_true, List.forall_mem_cons]
    simp only [SameEntry, Bool.and_eq_true]

/-- How two values are the same. -/
inductive Alike : Value → Value → Prop
  | null : Alike null null
  | bool (value : Bool) : Alike (bool value) (bool value)
  | int (value : Int64) : Alike (int value) (int value)
  /-- Bit by bit: a NaN is like itself, and zero is not like its negative. -/
  | float (value : Binary64) : Alike (float value) (float value)
  | char (value : Char) : Alike (char value) (char value)
  | text (value : String) : Alike (text value) (text value)
  | bean {first second : Bean} (hlabel : first.label? = second.label?) :
      Alike (bean first) (bean second)
  | array (type : ValueType) {xs ys : List Value}
      (hitems : List.Forall₂ (fun x y => x.same y = true) xs ys) : Alike (array type xs) (array type ys)
  | list {xs ys : List Value} (hitems : List.Forall₂ (fun x y => x.same y = true) xs ys) :
      Alike (list xs) (list ys)
  | set {xs ys : List Value} (hlength : xs.length = ys.length)
      (hitems : ∀ x ∈ xs, ∃ y ∈ ys, x.same y = true) : Alike (set xs) (set ys)
  | map {xs ys : List (Value × Value)} (hlength : xs.length = ys.length)
      (hentries : ∀ x ∈ xs, ∃ y ∈ ys, SameEntry x y) : Alike (map xs) (map ys)
  | properties {first second : Table String} (hentries : first.entries.Perm second.entries) :
      Alike (properties first) (properties second)

theorem same_iff_alike {first second : Value} : first.same second = true ↔ Alike first second := by
  constructor
  · intro h
    fun_cases same first second
    case case1 => exact .null
    case case7 => exact .bean (by simpa [same, BeanOf.same] using h)
    case case8 =>
      simp only [same, Bool.and_eq_true, beq_iff_eq, sameItems_iff] at h
      exact h.1 ▸ .array _ h.2
    case case9 => exact .list (by simpa [same, sameItems_iff] using h)
    case case10 =>
      simp only [same, Bool.and_eq_true, beq_iff_eq, itemsAmong_iff] at h
      exact .set h.1 h.2
    case case11 =>
      simp only [same, Bool.and_eq_true, beq_iff_eq, entriesAmong_iff] at h
      exact .map h.1 h.2
    case case12 => exact .properties (Table.same_iff_perm.mp (by simpa [same] using h))
    case case13 => simp_all [same]
    all_goals
      obtain rfl : _ = _ := by simpa [same] using h
      constructor
  · intro h
    cases h with
    | null | bool | int | float | char | text => simp [same]
    | bean hlabel => simpa [same, BeanOf.same] using hlabel
    | array type hitems => simpa [same, sameItems_iff] using hitems
    | list hitems => simpa [same, sameItems_iff] using hitems
    | set hlength hitems =>
      simp only [same, Bool.and_eq_true, beq_iff_eq, itemsAmong_iff]
      exact ⟨hlength, hitems⟩
    | map hlength hentries =>
      simp only [same, Bool.and_eq_true, beq_iff_eq, entriesAmong_iff]
      exact ⟨hlength, hentries⟩
    | properties hentries =>
      rw [same]
      exact Table.same_iff_perm.mpr hentries

/-! ## An equivalence -/

/-- Every value is the same as itself. -/
theorem same_refl (value : Value) : value.same value = true := by
  induction value using induction_parts with
  | step value ih =>
    rw [same_iff_alike]
    cases value with
    | null => exact .null
    | array type items => exact .array type (List.forall₂_same.mpr ih)
    | list items => exact .list (List.forall₂_same.mpr ih)
    | set items => exact .set rfl fun item hitem => ⟨item, hitem, ih item hitem⟩
    | map entries =>
      exact .map rfl fun entry hentry =>
        ⟨entry, hentry, ih _ (key_mem_parts hentry), ih _ (value_mem_parts hentry)⟩
    | properties table => exact .properties (.refl _)
    | bean value => exact .bean rfl
    | _ => constructor

/-- What is the same as a value that is the same as a third one, is the same as that. -/
theorem same_trans {first second third : Value} (h : first.same second = true)
    (h' : second.same third = true) : first.same third = true := by
  induction first using induction_parts generalizing second third with
  | step first ih =>
    rw [same_iff_alike] at h h' ⊢
    cases h with
    | null | bool | int | float | char | text => exact h'
    | bean hlabel =>
      cases h' with
      | bean hlabel' => exact .bean (hlabel.trans hlabel')
    | array type hitems =>
      cases h' with
      | array _ hitems' =>
        exact .array type (forall₂_trans (fun x hx _ _ hxy hyz => ih x hx hxy hyz) hitems hitems')
    | list hitems =>
      cases h' with
      | list hitems' => exact .list (forall₂_trans (fun x hx _ _ hxy hyz => ih x hx hxy hyz) hitems hitems')
    | set hlength hitems =>
      cases h' with
      | set hlength' hitems' =>
        refine .set (hlength.trans hlength') fun x hx => ?_
        obtain ⟨y, hy, hxy⟩ := hitems x hx
        obtain ⟨z, hz, hyz⟩ := hitems' y hy
        exact ⟨z, hz, ih x hx hxy hyz⟩
    | map hlength hentries =>
      cases h' with
      | map hlength' hentries' =>
        refine .map (hlength.trans hlength') fun x hx => ?_
        obtain ⟨y, hy, hkey, hvalue⟩ := hentries x hx
        obtain ⟨z, hz, hkey', hvalue'⟩ := hentries' y hy
        exact ⟨z, hz, ih _ (key_mem_parts hx) hkey hkey', ih _ (value_mem_parts hx) hvalue hvalue'⟩
    | properties hentries =>
      cases h' with
      | properties hentries' => exact .properties (hentries.trans hentries')

/-! ### Values without repetition -/

mutual

/-- Whether sets hold no element twice and maps no key, at any depth. -/
def isProper : Value → Bool
  | array _ items => allProper items
  | list items => allProper items
  | set items =>
    decide (items.Pairwise fun first second => first.same second = false) && allProper items
  | map entries =>
    decide (entries.Pairwise fun first second => first.1.same second.1 = false) &&
      allProperEntries entries
  | _ => true

/-- Whether all values of a sequence are proper. -/
def allProper : List Value → Bool
  | [] => true
  | item :: rest => item.isProper && allProper rest

/-- Whether all keys and values of a map are proper. -/
def allProperEntries : List (Value × Value) → Bool
  | [] => true
  | (key, value) :: rest => key.isProper && value.isProper && allProperEntries rest

end

theorem allProper_iff {items : List Value} :
    allProper items = true ↔ ∀ item ∈ items, item.isProper = true := by
  induction items with
  | nil => simp [allProper]
  | cons item rest ih => simp [allProper, ih]

theorem allProperEntries_iff {entries : List (Value × Value)} :
    allProperEntries entries = true ↔
      ∀ entry ∈ entries, entry.1.isProper = true ∧ entry.2.isProper = true := by
  induction entries with
  | nil => simp [allProperEntries]
  | cons entry rest ih =>
    obtain ⟨key, value⟩ := entry
    rw [allProperEntries, Bool.and_eq_true, Bool.and_eq_true, ih, List.forall_mem_cons]

theorem isProper_set_iff {items : List Value} :
    (set items).isProper = true ↔
      items.Pairwise (fun first second => first.same second = false) ∧
        ∀ item ∈ items, item.isProper = true := by
  rw [isProper, Bool.and_eq_true, decide_eq_true_iff, allProper_iff]

theorem isProper_map_iff {entries : List (Value × Value)} :
    (map entries).isProper = true ↔
      entries.Pairwise (fun first second => first.1.same second.1 = false) ∧
        ∀ entry ∈ entries, entry.1.isProper = true ∧ entry.2.isProper = true := by
  rw [isProper, Bool.and_eq_true, decide_eq_true_iff, allProperEntries_iff]

/-- Being the same can be turned round for the value. -/
def Symmetric (value : Value) : Prop :=
  ∀ other : Value, value.same other = true → other.same value = true

/-- Of two sets that are the same, one can be put in the order of the other. -/
theorem exists_perm_of_items {xs ys : List Value} (hsymm : ∀ x ∈ xs, x.Symmetric)
    (hapart : xs.Pairwise fun first second => first.same second = false)
    (hlength : xs.length = ys.length) (hitems : ∀ x ∈ xs, ∃ y ∈ ys, x.same y = true) :
    ∃ zs, zs.Perm ys ∧ List.Forall₂ (fun x z => x.same z = true) xs zs := by
  refine exists_perm_forall₂ (Nat.le_of_eq hlength.symm) hitems ?_
  refine hapart.imp_of_mem fun {x x'} _ hx' hdifferent y _ hxy hxy' => ?_
  have hsame := same_trans hxy (hsymm x' hx' y hxy')
  rw [hdifferent] at hsame
  cases hsame

/-- Of two maps that are the same, one can be put in the order of the other. -/
theorem exists_perm_of_entries {xs ys : List (Value × Value)} (hsymm : ∀ x ∈ xs, x.1.Symmetric)
    (hapart : xs.Pairwise fun first second => first.1.same second.1 = false)
    (hlength : xs.length = ys.length) (hentries : ∀ x ∈ xs, ∃ y ∈ ys, SameEntry x y) :
    ∃ zs, zs.Perm ys ∧ List.Forall₂ SameEntry xs zs := by
  refine exists_perm_forall₂ (Nat.le_of_eq hlength.symm) hentries ?_
  refine hapart.imp_of_mem fun {x x'} _ hx' hdifferent y _ hxy hxy' => ?_
  have hsame := same_trans hxy.1 (hsymm x' hx' y.1 hxy'.1)
  rw [hdifferent] at hsame
  cases hsame

/-- **For a value without repetitions, being the same can be turned round.** -/
theorem same_symm {value other : Value} (hproper : value.isProper = true)
    (h : value.same other = true) : other.same value = true := by
  induction value using induction_parts generalizing other with
  | step value ih =>
    rw [same_iff_alike] at h ⊢
    cases h with
    | null | bool | int | float | char | text => constructor
    | bean hlabel => exact .bean hlabel.symm
    | array type hitems =>
      rw [isProper, allProper_iff] at hproper
      exact .array type (forall₂_turned (fun x hx _ hxy => ih x hx (hproper x hx) hxy) hitems)
    | list hitems =>
      rw [isProper, allProper_iff] at hproper
      exact .list (forall₂_turned (fun x hx _ hxy => ih x hx (hproper x hx) hxy) hitems)
    | @set xs ys hlength hitems =>
      obtain ⟨hapart, hall⟩ := isProper_set_iff.mp hproper
      have hsymm : ∀ x ∈ xs, x.Symmetric := fun x hx _ hxy => ih x hx (hall x hx) hxy
      obtain ⟨zs, hperm, hzs⟩ := exists_perm_of_items hsymm hapart hlength hitems
      refine .set hlength.symm fun y hy => ?_
      obtain ⟨x, hx, hxy⟩ := exists_mem_of_forall₂ hzs (hperm.mem_iff.mpr hy)
      exact ⟨x, hx, hsymm x hx y hxy⟩
    | @map xs ys hlength hentries =>
      obtain ⟨hapart, hall⟩ := isProper_map_iff.mp hproper
      have hkeys : ∀ x ∈ xs, x.1.Symmetric := fun x hx _ hxy =>
        ih x.1 (key_mem_parts hx) (hall x hx).1 hxy
      have hvalues : ∀ x ∈ xs, x.2.Symmetric := fun x hx _ hxy =>
        ih x.2 (value_mem_parts hx) (hall x hx).2 hxy
      obtain ⟨zs, hperm, hzs⟩ := exists_perm_of_entries hkeys hapart hlength hentries
      refine .map hlength.symm fun y hy => ?_
      obtain ⟨x, hx, hxy⟩ := exists_mem_of_forall₂ hzs (hperm.mem_iff.mpr hy)
      exact ⟨x, hx, hkeys x hx _ hxy.1, hvalues x hx _ hxy.2⟩
    | properties hentries => exact .properties hentries.symm

/-! ### Without regard to order -/

/-- **A set is the same as another exactly if the other can be put in an order in which it is the same
element by element.** -/
theorem same_set_iff {xs ys : List Value} (hproper : (set xs).isProper = true) :
    (set xs).same (set ys) = true ↔
      ∃ zs, zs.Perm ys ∧ List.Forall₂ (fun x z => x.same z = true) xs zs := by
  obtain ⟨hapart, hall⟩ := isProper_set_iff.mp hproper
  rw [same_iff_alike]
  constructor
  · intro h
    cases h with
    | set hlength hitems =>
      exact exists_perm_of_items (fun x hx _ => same_symm (hall x hx)) hapart hlength hitems
  · rintro ⟨zs, hperm, hzs⟩
    refine .set (hzs.length_eq.trans hperm.length_eq) fun x hx => ?_
    obtain ⟨z, hz, hxz⟩ := exists_mem_of_forall₂ hzs.flip hx
    exact ⟨z, hperm.mem_iff.mp hz, hxz⟩

/-- **A map is the same as another exactly if the other can be put in an order in which it is the same
entry by entry.** -/
theorem same_map_iff {xs ys : List (Value × Value)} (hproper : (map xs).isProper = true) :
    (map xs).same (map ys) = true ↔ ∃ zs, zs.Perm ys ∧ List.Forall₂ SameEntry xs zs := by
  obtain ⟨hapart, hall⟩ := isProper_map_iff.mp hproper
  rw [same_iff_alike]
  constructor
  · intro h
    cases h with
    | map hlength hentries =>
      exact exists_perm_of_entries (fun x hx _ => same_symm (hall x hx).1) hapart hlength hentries
  · rintro ⟨zs, hperm, hzs⟩
    refine .map (hzs.length_eq.trans hperm.length_eq) fun x hx => ?_
    obtain ⟨z, hz, hxz⟩ := exists_mem_of_forall₂ hzs.flip hx
    exact ⟨z, hperm.mem_iff.mp hz, hxz⟩

theorem same_properties_iff {first second : Table String} :
    (properties first).same (properties second) = true ↔ first.entries.Perm second.entries := by
  rw [same]
  exact Table.same_iff_perm

/-! ## Digests -/

theorem digests_eq_of_forall₂ {xs ys : List Value}
    (h : List.Forall₂ (fun x y => x.digest = y.digest) xs ys) : digests xs = digests ys := by
  induction h with
  | nil => rfl
  | cons hfirst _ ih => rw [digests, digests, hfirst, ih]

/-- **Values that are the same have the same digest.** -/
theorem digest_eq_of_same {first second : Value} (h : first.same second = true) :
    first.digest = second.digest := by
  induction first using induction_parts generalizing second with
  | step first ih =>
    rw [same_iff_alike] at h
    cases h with
    | null | bool | int | float | char | text => rfl
    | bean hlabel => simp only [digest, hlabel]
    | @array _ xs ys hitems =>
      have hdigests : digests xs = digests ys :=
        digests_eq_of_forall₂ (forall₂_of_mem (fun x hx _ hxy => ih x hx hxy) hitems)
      simp only [digest, hdigests, hitems.length_eq]
    | @list xs ys hitems =>
      have hdigests : digests xs = digests ys :=
        digests_eq_of_forall₂ (forall₂_of_mem (fun x hx _ hxy => ih x hx hxy) hitems)
      simp only [digest, hdigests, hitems.length_eq]
    | set hlength => simp only [digest, hlength]
    | map hlength => simp only [digest, hlength]
    | properties hentries => simp only [digest, Table.size, hentries.length_eq]

/-! ## Collecting -/

/-- An element that is added to a set is new to it. -/
theorem isProper_addItem {items : List Value} {item : Value} (h : (set items).isProper = true)
    (hitem : item.isProper = true) : (set (addItem items item)).isProper = true := by
  rw [addItem]
  split
  · exact h
  · next hnew =>
    obtain ⟨hapart, hall⟩ := isProper_set_iff.mp h
    have hnew' : ∀ old ∈ items, item.same old = false := by
      simpa [isAmong] using hnew
    refine isProper_set_iff.mpr ⟨?_, ?_⟩
    · rw [List.pairwise_append]
      refine ⟨hapart, List.pairwise_singleton _ _, fun old hold _ hmem => ?_⟩
      rw [List.mem_singleton.mp hmem, Bool.eq_false_iff]
      intro hsame
      have hturned := same_symm (hall old hold) hsame
      rw [hnew' old hold] at hturned
      cases hturned
    · intro other hother
      rcases List.mem_append.mp hother with hold | hmem
      · exact hall other hold
      · exact List.mem_singleton.mp hmem ▸ hitem

/-- **What is collected into a set holds no element twice.** -/
theorem isProper_setOf {items : List Value} (h : ∀ item ∈ items, item.isProper = true) :
    (setOf items).isProper = true := by
  suffices hfold : ∀ collected, (set collected).isProper = true →
      (set (items.foldl addItem collected)).isProper = true from
    hfold [] (isProper_set_iff.mpr ⟨.nil, fun _ hmem => nomatch hmem⟩)
  induction items with
  | nil => exact fun _ hcollected => hcollected
  | cons item rest ih =>
    intro collected hcollected
    exact ih (fun other hother => h other (List.mem_cons_of_mem _ hother)) _
      (isProper_addItem hcollected (h item List.mem_cons_self))

/-- The keys of a map to which an entry is added are those it had, and perhaps the new one. -/
theorem mem_addEntry {key value : Value} :
    ∀ {entries : List (Value × Value)} {entry : Value × Value}, entry ∈ addEntry key value entries →
      entry ∈ entries ∨ entry = (key, value) ∨
        ∃ old, (entry.1, old) ∈ entries ∧ entry.2 = value
  | [], entry, h => .inr (.inl (List.mem_singleton.mp h))
  | (other, old) :: rest, entry, h => by
    rw [addEntry] at h
    split at h
    · rcases List.mem_cons.mp h with rfl | hrest
      · exact .inr (.inr ⟨old, List.mem_cons_self, rfl⟩)
      · exact .inl (List.mem_cons_of_mem _ hrest)
    · rcases List.mem_cons.mp h with rfl | hrest
      · exact .inl List.mem_cons_self
      · rcases mem_addEntry hrest with hmem | heq | ⟨old', hmem, hvalue⟩
        · exact .inl (List.mem_cons_of_mem _ hmem)
        · exact .inr (.inl heq)
        · exact .inr (.inr ⟨old', List.mem_cons_of_mem _ hmem, hvalue⟩)

/-- The key of an entry that is added to a map is new to it, or the entry takes the place of one that
has it. -/
theorem isProper_addEntry {key value : Value} (hkey : key.isProper = true)
    (hvalue : value.isProper = true) :
    ∀ {entries : List (Value × Value)}, (map entries).isProper = true →
      (map (addEntry key value entries)).isProper = true
  | [], _ => by
    rw [addEntry, isProper_map_iff]
    exact ⟨List.pairwise_singleton _ _, by simp [hkey, hvalue]⟩
  | (other, old) :: rest, h => by
    obtain ⟨hapart, hall⟩ := isProper_map_iff.mp h
    obtain ⟨hfirst, hothers⟩ := List.pairwise_cons.mp hapart
    obtain ⟨hown, hrest⟩ := List.forall_mem_cons.mp hall
    rw [addEntry]
    split
    · exact isProper_map_iff.mpr ⟨List.pairwise_cons.mpr ⟨hfirst, hothers⟩,
        List.forall_mem_cons.mpr ⟨⟨hown.1, hvalue⟩, hrest⟩⟩
    · next hdifferent =>
      obtain ⟨hapart', hall'⟩ :=
        isProper_map_iff.mp (isProper_addEntry hkey hvalue (isProper_map_iff.mpr ⟨hothers, hrest⟩))
      refine isProper_map_iff.mpr ⟨List.pairwise_cons.mpr ⟨fun entry hentry => ?_, hapart'⟩,
        List.forall_mem_cons.mpr ⟨hown, hall'⟩⟩
      rcases mem_addEntry hentry with hmem | rfl | ⟨old', hmem, _⟩
      · exact hfirst entry hmem
      · rw [Bool.eq_false_iff]
        intro hsame
        exact hdifferent (same_symm hown.1 hsame)
      · exact hfirst (entry.1, old') hmem

/-- **What is collected into a map holds no key twice.** -/
theorem isProper_mapOf {entries : List (Value × Value)}
    (h : ∀ entry ∈ entries, entry.1.isProper = true ∧ entry.2.isProper = true) :
    (mapOf entries).isProper = true := by
  suffices hfold : ∀ collected, (map collected).isProper = true →
      (map (entries.foldl (fun collected entry => addEntry entry.1 entry.2 collected)
        collected)).isProper = true from
    hfold [] (isProper_map_iff.mpr ⟨.nil, fun _ hmem => nomatch hmem⟩)
  induction entries with
  | nil => exact fun _ hcollected => hcollected
  | cons entry rest ih =>
    intro collected hcollected
    obtain ⟨hkey, hvalue⟩ := h entry List.mem_cons_self
    exact ih (fun other hother => h other (List.mem_cons_of_mem _ hother)) _
      (isProper_addEntry hkey hvalue hcollected)

end Value

/-! ## The equivalence -/

/-- A value whose sets hold no element twice and whose maps no key, at any depth. -/
def ProperValue : Type :=
  { value : Value // value.isProper = true }

/-- **To be the same is an equivalence, it disregards the order of sets, maps and property tables, and
values that are the same have the same digest.** -/
theorem ProperValue.same_equivalence :
    Equivalence (fun first second : ProperValue => first.val.same second.val = true) ∧
      (∀ first second : ProperValue, first.val.same second.val = true →
        first.val.digest = second.val.digest) ∧
      (∀ xs ys : List Value, (Value.set xs).isProper = true →
        ((Value.set xs).same (.set ys) = true ↔
          ∃ zs, zs.Perm ys ∧ List.Forall₂ (fun x z => x.same z = true) xs zs)) ∧
      (∀ xs ys : List (Value × Value), (Value.map xs).isProper = true →
        ((Value.map xs).same (.map ys) = true ↔
          ∃ zs, zs.Perm ys ∧
            List.Forall₂ (fun x z => x.1.same z.1 = true ∧ x.2.same z.2 = true) xs zs)) ∧
      (∀ first second : Table String,
        (Value.properties first).same (.properties second) = true ↔
          first.entries.Perm second.entries) ∧
      (∀ items : List ProperValue, (Value.setOf (items.map Subtype.val)).isProper = true) ∧
      ∀ entries : List (ProperValue × ProperValue),
        (Value.mapOf (entries.map fun entry => (entry.1.val, entry.2.val))).isProper = true := by
  refine ⟨⟨fun value => Value.same_refl value.val, fun {first _} h => Value.same_symm first.property h,
    fun h h' => Value.same_trans h h'⟩, fun _ _ h => Value.digest_eq_of_same h,
    fun _ _ hproper => Value.same_set_iff hproper, fun _ _ hproper => Value.same_map_iff hproper,
    fun _ _ => Value.same_properties_iff, ?_, ?_⟩
  · intro items
    refine Value.isProper_setOf fun item hitem => ?_
    obtain ⟨value, _, rfl⟩ := List.mem_map.mp hitem
    exact value.property
  · intro entries
    refine Value.isProper_mapOf fun entry hentry => ?_
    obtain ⟨value, _, rfl⟩ := List.mem_map.mp hentry
    exact ⟨value.1.property, value.2.property⟩

/-- The two zeros and a list are a proper set, which is the same in another order. -/
theorem ProperValue.same_set_of_zeros :
    (Value.set [.float ⟨0⟩, .list [.text "a"], .float ⟨0x8000000000000000⟩]).isProper = true ∧
      (Value.set [.float ⟨0⟩, .list [.text "a"], .float ⟨0x8000000000000000⟩]).same
        (.set [.float ⟨0x8000000000000000⟩, .float ⟨0⟩, .list [.text "a"]]) = true ∧
      (Value.set [.float ⟨0⟩, .list [.text "a"], .float ⟨0x8000000000000000⟩]).digest =
        (Value.set [.float ⟨0x8000000000000000⟩, .float ⟨0⟩, .list [.text "a"]]).digest := by
  have hproper : (Value.set [.float ⟨0⟩, .list [.text "a"],
      .float ⟨0x8000000000000000⟩]).isProper = true := by decide +kernel
  have hother : (Value.set [.float ⟨0x8000000000000000⟩, .float ⟨0⟩,
      .list [.text "a"]]).isProper = true := by decide +kernel
  obtain ⟨_, hdigest, hset, _⟩ := same_equivalence
  have hsame := (hset _ [.float ⟨0x8000000000000000⟩, .float ⟨0⟩, .list [.text "a"]] hproper).mpr
    ⟨_, List.perm_append_singleton _ [_, _], List.forall₂_same.mpr fun item _ => item.same_refl⟩
  exact ⟨hproper, hsame, hdigest ⟨_, hproper⟩ ⟨_, hother⟩ hsame⟩

end Injector
