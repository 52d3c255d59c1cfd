import LspFramework.Serialization.Serialization

/-!
# The type test of a tuple

`canDeserializeTupleFromJson` tests the size of the array and then the elements in turn.  It returns at
the first element that passes and goes on behind one that does not, so it tells whether some element
passes, where the decoder needs them all.  The element types and their test are parameters here; `Ty` is
an instance.

    tuple ≠ [] → ((canDeserializeTupleFromJson can tuple array ↔ Matches can tuple array) ↔
      array.length ≠ tuple.length ∨ every element passes ∨ none does)              (tupleTest_iff)
-/

namespace Lsp

open Chars Lsp.Json

section TupleTest

variable {T : Type} (canDeserializeTypeFromJson : T → Value → Bool)

/-- `canDeserializeTupleFromJson` at an index, from the types and the elements that are left. -/
def tupleElementsFromJson : List T → List Value → Bool
  | t :: ts, v :: vs => if canDeserializeTypeFromJson t v then true else tupleElementsFromJson ts vs
  | _, _ => false

/-- `canDeserializeTupleFromJson<0, Tuple>` -/
def canDeserializeTupleFromJson (tuple : List T) (array : Json.Array) : Bool :=
  if array.length ≠ tuple.length then false
  else tupleElementsFromJson canDeserializeTypeFromJson tuple array

/-- The array has the elements of the tuple, each of its type. -/
structure Matches (tuple : List T) (array : Json.Array) : Prop where
  size : array.length = tuple.length
  elements : ∀ (i : Nat) (t : T) (v : Value), tuple[i]? = some t → array[i]? = some v →
    canDeserializeTypeFromJson t v = true

/-- No element is of its type. -/
def MatchesNowhere (tuple : List T) (array : Json.Array) : Prop :=
  ∀ (i : Nat) (t : T) (v : Value), tuple[i]? = some t → array[i]? = some v →
    canDeserializeTypeFromJson t v = false

variable {canDeserializeTypeFromJson} {tuple : List T} {array : Json.Array}

/-- **One element is enough.** -/
theorem tupleElementsFromJson_iff :
    tupleElementsFromJson canDeserializeTypeFromJson tuple array = true ↔
      ¬ MatchesNowhere canDeserializeTypeFromJson tuple array := by
  induction tuple generalizing array with
  | nil => simp [tupleElementsFromJson, MatchesNowhere]
  | cons t ts ih =>
    cases array with
    | nil => simp [tupleElementsFromJson, MatchesNowhere]
    | cons v vs =>
      rw [tupleElementsFromJson]
      split
      · next hpass =>
        refine iff_of_true rfl fun hno => ?_
        have := hno 0 t v rfl rfl
        rw [hpass] at this
        cases this
      · next hfail =>
        rw [ih, not_iff_not]
        constructor
        · intro hno i t' v' ht hv
          cases i with
          | zero =>
            obtain rfl := Option.some.inj ht
            obtain rfl := Option.some.inj hv
            exact Bool.eq_false_iff.mpr hfail
          | succ i => exact hno i t' v' ht hv
        · exact fun hno i t' v' ht hv => hno (i + 1) t' v' ht hv

theorem canDeserializeTupleFromJson_iff :
    canDeserializeTupleFromJson canDeserializeTypeFromJson tuple array = true ↔
      array.length = tuple.length ∧ ¬ MatchesNowhere canDeserializeTypeFromJson tuple array := by
  rw [canDeserializeTupleFromJson]
  split
  · next hne => exact iff_of_false Bool.false_ne_true fun h => hne h.1
  · next heq => rw [tupleElementsFromJson_iff, and_iff_right (not_not.mp heq)]

/-- A tuple has a first element. -/
theorem not_matches_of_nowhere (hne : tuple ≠ []) (hno : MatchesNowhere canDeserializeTypeFromJson tuple array) :
    ¬ Matches canDeserializeTypeFromJson tuple array := by
  intro hm
  obtain ⟨t, ts, rfl⟩ := List.exists_cons_of_ne_nil hne
  cases array with
  | nil => cases hm.size
  | cons v vs =>
    have htrue := hm.elements 0 t v rfl rfl
    rw [hno 0 t v rfl rfl] at htrue
    cases htrue

/-- **The test of a tuple is right where all elements pass, or none, or the sizes differ.** -/
theorem tupleTest_iff {T : Type} (canDeserializeTypeFromJson : T → Value → Bool) (tuple : List T)
    (array : Json.Array) (hne : tuple ≠ []) :
    (canDeserializeTupleFromJson canDeserializeTypeFromJson tuple array = true ↔
        Matches canDeserializeTypeFromJson tuple array) ↔
      array.length ≠ tuple.length ∨ Matches canDeserializeTypeFromJson tuple array ∨
        MatchesNowhere canDeserializeTypeFromJson tuple array := by
  rw [canDeserializeTupleFromJson_iff]
  constructor
  · intro h
    by_cases hsize : array.length = tuple.length
    · by_cases hno : MatchesNowhere canDeserializeTypeFromJson tuple array
      · exact .inr (.inr hno)
      · exact .inr (.inl (h.mp ⟨hsize, hno⟩))
    · exact .inl hsize
  · rintro (hsize | hm | hno)
    · exact iff_of_false (fun h => hsize h.1) (fun h => hsize h.size)
    · exact iff_of_true ⟨hm.size, fun hno => not_matches_of_nowhere hne hno hm⟩ hm
    · exact iff_of_false (fun h => h.2 hno) (not_matches_of_nowhere hne hno)

end TupleTest

/-! ## Tuples of `Ty` -/

/-- The types of the elements. -/
def Tys.types : Tys → List Ty
  | .last t => [t]
  | .more t ts => t :: ts.types

theorem Tys.length_types (ts : Tys) : ts.types.length = ts.tupleSize := by
  induction ts using Tys.rec (motive_1 := fun _ => True) (motive_3 := fun _ => True) with
  | last t => rfl
  | more t ts _ ih => rw [types, tupleSize, List.length_cons, ih]
  | _ => trivial

theorem Tys.elementsFromJson_eq (ts : Tys) (array : Json.Array) :
    ts.canDeserializeTupleFromJson array = tupleElementsFromJson Ty.canDeserializeTypeFromJson ts.types array := by
  induction ts using Tys.rec (motive_1 := fun _ => True) (motive_3 := fun _ => True) generalizing array with
  | last t =>
    cases array with
    | nil => rfl
    | cons v vs => simp [canDeserializeTupleFromJson, types, tupleElementsFromJson]
  | more t ts _ ih =>
    cases array with
    | nil => rfl
    | cons v vs => simp [canDeserializeTupleFromJson, types, tupleElementsFromJson, ih]
  | _ => trivial

/-- The branch of `canDeserializeTypeFromJson` for tuples. -/
theorem Ty.canDeserialize_tuple (ts : Tys) (array : Json.Array) :
    (Ty.tuple ts).canDeserializeTypeFromJson (.array array) =
      canDeserializeTupleFromJson Ty.canDeserializeTypeFromJson ts.types array := by
  rw [canDeserializeTypeFromJson, Lsp.canDeserializeTupleFromJson, ts.elementsFromJson_eq, ts.length_types]
  split <;> simp_all

/-- `std::tuple<int, std::string>` on `[1, "a"]`. -/
theorem tupleTest_pair :
    canDeserializeTupleFromJson Ty.canDeserializeTypeFromJson [.integral .int, .string]
        [.integer 1, .string (bytes "a")] = true ↔
      Matches Ty.canDeserializeTypeFromJson [.integral .int, .string] [.integer 1, .string (bytes "a")] := by
  refine (tupleTest_iff Ty.canDeserializeTypeFromJson [.integral .int, .string]
    [.integer 1, .string (bytes "a")] (List.cons_ne_nil _ _)).mpr (.inr (.inl ⟨rfl, ?_⟩))
  intro i t v ht hv
  match i with
  | 0 => obtain ⟨rfl, rfl⟩ := And.intro (Option.some.inj ht) (Option.some.inj hv); rfl
  | 1 => obtain ⟨rfl, rfl⟩ := And.intro (Option.some.inj ht) (Option.some.inj hv); rfl

/-- `std::tuple<int, std::string>` passes on `[1, 2]`, and a variant of it and `std::vector<int>`
takes it for the tuple. -/
theorem tupleTest_wrong :
    let tuple : Tys := .more (.integral .int) (.last .string)
    let array : Json.Array := [.integer 1, .integer 2]
    canDeserializeTupleFromJson Ty.canDeserializeTypeFromJson tuple.types array = true ∧
      ¬ Matches Ty.canDeserializeTypeFromJson tuple.types array ∧
      (Tys.more (.tuple tuple) (.last (.vector (.integral .int)))).deserializableVariantIndex (.array array) =
        some 0 := by
  refine ⟨rfl, fun hm => ?_, rfl⟩
  cases hm.elements 1 .string (.integer 2) rfl rfl

end Lsp
