import LspFramework.Lib.Fallible
import LspFramework.Serialization.Serialization

/-!
# The type test and the decoder

`canDeserializeTypeFromJson` is to tell whether `fromJson` decodes a value.  The decoder looks at
every element of an array and at every member of an object, the test at the first element of a
vector, at the elements of a tuple until one passes, and at no member.

* `Ty.Accepts T json`: every value that decoding `json` as a `T` calls `value()` on is there.
* `Ty.Covered T json`: the same for what the test does not look at.

Main results: `Ty.fromJson_isSome` (decoding goes through exactly when `Accepts` says so, whatever
is decoded into) and `Ty.probe_decodes_iff`.
-/

namespace Lsp

open Chars Fallible Lsp.Json

/-! ## What is decoded -/

def Underlying.Accepts : Underlying → Value → Prop
  | .boolean, json => json.isBoolean = true
  | .integral _, json => json.isNumber = true
  | .string, json => json.isString = true

mutual

def Ty.Accepts : Ty → Value → Prop
  | .null, _ => True
  | .bool, json => json.isBoolean = true
  | .integral _, json => json.isNumber = true
  | .floating _, json => json.isNumber = true
  | .string, json => json.isString = true
  | .uri, json => json.isString = true
  | .enumeration u _, json => u.Accepts json
  | .nullable t, json => json.isNull = true ∨ t.Accepts json
  | .nullableVariant ts, json => json.isNull = true ∨ ts.AlternativeAccepts json
  | .vector t, .array vs => ∀ v ∈ vs, t.Accepts v
  | .vector _, _ => False
  | .tuple ts, .array vs => vs.length = ts.tupleSize → ts.ElementsAccept vs
  | .tuple _, _ => False
  | .strMap k t, .object ms => ∀ m ∈ ms, (k.ofMember m.1).isSome = true → t.Accepts m.2
  | .strMap _ _, _ => False
  | .variant ts, json => ts.AlternativeAccepts json
  | .structure ms, .object obj => ms.MembersAccept obj
  | .structure _, _ => False

/-- Each element is decoded by its type. -/
def Tys.ElementsAccept : Tys → List Value → Prop
  | .last t, v :: _ => t.Accepts v
  | .more t ts, v :: vs => t.Accepts v ∧ ts.ElementsAccept vs
  | .last _, [] => True
  | .more _ _, [] => True

/-- The first alternative that passes the test, if any does, decodes the value. -/
def Tys.AlternativeAccepts : Tys → Value → Prop
  | .last t, json => t.canDeserializeTypeFromJson json = true → t.Accepts json
  | .more t ts, json =>
    if t.canDeserializeTypeFromJson json then t.Accepts json else ts.AlternativeAccepts json

def Members.MembersAccept : Members → Object → Prop
  | .none, _ => True
  | .required key t ms, obj =>
    (∃ v, Object.find key obj = some v ∧ t.Accepts v) ∧ ms.MembersAccept obj
  | .optional key t ms, obj =>
    (∀ v, Object.find key obj = some v →
      (v.isNull && !t.canDeserializeTypeFromJson v) = false → t.Accepts v) ∧ ms.MembersAccept obj

end

/-! ## What the test leaves open -/

mutual

def Ty.Covered : Ty → Value → Prop
  | .uri, _ => False
  | .enumeration .boolean _, _ => False
  | .nullable t, json => json.isNull = true ∨ t.Covered json
  | .nullableVariant ts, json => json.isNull = true ∨ ts.AlternativeCovered json
  | .vector t, .array (v :: vs) => t.Covered v ∧ ∀ w ∈ vs, t.Accepts w
  | .tuple ts, .array vs => ts.ElementsAccept vs
  | .strMap k t, .object ms => ∀ m ∈ ms, (k.ofMember m.1).isSome = true → t.Accepts m.2
  | .variant ts, json => ts.AlternativeCovered json
  | .structure ms, .object obj => ms.MembersAccept obj
  | _, _ => True

/-- The first alternative that passes. -/
def Tys.AlternativeCovered : Tys → Value → Prop
  | .last t, json => t.Covered json
  | .more t ts, json => if t.canDeserializeTypeFromJson json then t.Covered json else ts.AlternativeCovered json

end

/-! ## Decoding -/

@[simp] theorem isSome_boolean? (json : Value) : json.boolean?.isSome = json.isBoolean := by
  cases json <;> rfl

@[simp] theorem isSome_number? (json : Value) : json.number?.isSome = json.isNumber := by
  cases json <;> rfl

@[simp] theorem isSome_string? (json : Value) : json.string?.isSome = json.isString := by
  cases json <;> rfl

theorem Underlying.fromJson_isSome (u : Underlying) (json : Value) :
    (u.fromJson json).isSome = true ↔ u.Accepts json := by
  cases u <;> simp [fromJson, Accepts]

theorem isSome_null_or_iff {α : Type} {json : Value} {x : Option α} {p : Prop} (h : x.isSome = true ↔ p) :
    (if json.isNull then some none else x.map some).isSome = true ↔ json.isNull = true ∨ p := by
  cases json.isNull with
  | true => simp
  | false => simp [h]

theorem Tys.alternativeAccepts_of_npos {ts : Tys} {json : Value}
    (h : ts.deserializableVariantIndex json = none) : ts.AlternativeAccepts json := by
  induction ts using Tys.rec (motive_1 := fun _ => True) (motive_3 := fun _ => True) with
  | last t =>
    intro hcan
    simp [Tys.deserializableVariantIndex, hcan] at h
  | more t ts _ ih =>
    rw [Tys.deserializableVariantIndex] at h
    split at h
    · cases h
    · next hcan =>
      rw [Tys.AlternativeAccepts, if_neg hcan]
      exact ih (Option.map_eq_none_iff.mp h)
  | _ => trivial

mutual

/-- **Decoding goes through exactly on the values of the type's kind**, whatever it decodes into. -/
theorem Ty.fromJson_isSome : (t : Ty) → (json : Value) → (value : t.Val) →
    ((t.fromJson json value).isSome = true ↔ t.Accepts json)
  | .null, _, _ => ⟨fun _ => trivial, fun _ => rfl⟩
  | .bool, json, _ => by
    show json.boolean?.isSome = true ↔ _
    rw [isSome_boolean?, Ty.Accepts]
  | .integral a, json, _ => isSome_map_iff _ (by rw [isSome_number?, Ty.Accepts])
  | .floating f, json, _ => isSome_map_iff _ (by rw [isSome_number?, Ty.Accepts])
  | .string, json, _ => by
    show json.string?.isSome = true ↔ _
    rw [isSome_string?, Ty.Accepts]
  | .uri, json, _ => isSome_map_iff _ (by rw [isSome_string?, Ty.Accepts])
  | .enumeration u _, json, _ => isSome_map_iff _ (u.fromJson_isSome json)
  | .nullable t, json, _ => isSome_null_or_iff (t.fromJson_isSome json _)
  | .nullableVariant ts, json, _ => isSome_null_or_iff (ts.variantFromJson_isSome json _)
  | .vector t, json, value => by
    cases json with
    | array vs =>
      refine isSome_map_iff (List.append value) ?_
      exact mapM_isSome_iff (fun v => t.fromJson_isSome v t.default) vs
    | _ => exact ⟨fun h => (Bool.false_ne_true h).elim, False.elim⟩
  | .tuple ts, json, value => by
    cases json with
    | array vs =>
      show (if vs.length = ts.tupleSize then ts.elementsFromJson vs value else some value).isSome = true ↔ _
      rw [Ty.Accepts, ← ts.elementsFromJson_isSome vs value]
      split
      · next hlen => exact ⟨fun h _ => h, fun h => h hlen⟩
      · next hlen => exact ⟨fun _ h => absurd h hlen, fun _ => rfl⟩
    | _ => exact ⟨fun h => (Bool.false_ne_true h).elim, False.elim⟩
  | .strMap k t, json, value => by
    cases json with
    | object ms =>
      refine foldlM_isSome_iff ?_ ms value
      intro value m
      cases k.ofMember m.1 with
      | none => simp
      | some key =>
        refine (isSome_map_iff (value.assign key) (t.fromJson_isSome m.2 _)).trans ?_
        simp
    | _ => exact ⟨fun h => (Bool.false_ne_true h).elim, False.elim⟩
  | .variant ts, json, value => ts.variantFromJson_isSome json value
  | .structure ms, json, value => by
    cases json with
    | object obj => exact ms.membersFromJson_isSome obj value
    | _ => exact ⟨fun h => (Bool.false_ne_true h).elim, False.elim⟩

theorem Tys.elementsFromJson_isSome : (ts : Tys) → (vs : List Value) → (value : ts.All) →
    ((ts.elementsFromJson vs value).isSome = true ↔ ts.ElementsAccept vs)
  | .last t, [], _ => ⟨fun _ => trivial, fun _ => rfl⟩
  | .last t, v :: _, value => t.fromJson_isSome v value
  | .more t ts, [], _ => ⟨fun _ => trivial, fun _ => rfl⟩
  | .more t ts, v :: vs, value => by
    rw [Tys.ElementsAccept, ← t.fromJson_isSome v value.1]
    exact isSome_bind_map_iff _ fun _ => ts.elementsFromJson_isSome vs value.2

theorem Tys.alternativeFromJson_isSome : (ts : Tys) → (json : Value) → (variant : Option ts.Any) →
    (idx : Nat) → ts.deserializableVariantIndex json = some idx →
    ((ts.alternativeFromJson json variant idx).isSome = true ↔ ts.AlternativeAccepts json)
  | .last t, json, variant, idx, h => by
    have hcan : t.canDeserializeTypeFromJson json = true := by
      by_contra hc
      simp [Tys.deserializableVariantIndex, hc] at h
    rw [Tys.AlternativeAccepts, forall_prop_of_true hcan]
    exact t.fromJson_isSome json _
  | .more t ts, json, variant, idx, h => by
    rw [Tys.deserializableVariantIndex] at h
    rw [Tys.AlternativeAccepts]
    split at h
    · next hcan =>
      cases h
      rw [if_pos hcan]
      match variant with
      | none => exact isSome_map_iff _ (t.fromJson_isSome json _)
      | some (.inl v) => exact isSome_map_iff _ (t.fromJson_isSome json v)
      | some (.inr v) => exact isSome_map_iff _ (t.fromJson_isSome json _)
    · next hcan =>
      obtain ⟨i, hi, rfl⟩ := Option.map_eq_some_iff.mp h
      rw [if_neg hcan]
      match variant with
      | none => exact isSome_map_iff _ (ts.alternativeFromJson_isSome json _ i hi)
      | some (.inl v) => exact isSome_map_iff _ (ts.alternativeFromJson_isSome json _ i hi)
      | some (.inr v) => exact isSome_map_iff _ (ts.alternativeFromJson_isSome json _ i hi)

theorem Tys.variantFromJson_isSome (ts : Tys) (json : Value) (variant : ts.Any) :
    (variantFromJson (ts.deserializableVariantIndex json)
      (fun idx variant => ts.alternativeFromJson json (some variant) idx) variant).isSome = true ↔
      ts.AlternativeAccepts json := by
  cases h : ts.deserializableVariantIndex json with
  | none => exact ⟨fun _ => ts.alternativeAccepts_of_npos h, fun _ => rfl⟩
  | some idx => exact ts.alternativeFromJson_isSome json _ idx h

theorem Members.membersFromJson_isSome : (ms : Members) → (obj : Object) → (value : ms.Val) →
    ((ms.membersFromJson obj value).isSome = true ↔ ms.MembersAccept obj)
  | .none, _, _ => ⟨fun _ => trivial, fun _ => rfl⟩
  | .required key t ms, obj, value => by
    rw [Members.membersFromJson, Members.MembersAccept]
    cases Object.find key obj with
    | none => simp
    | some v =>
      simp only [Option.bind_some, Option.some.injEq, exists_eq_left']
      rw [← t.fromJson_isSome v value.1]
      exact isSome_bind_map_iff _ fun _ => ms.membersFromJson_isSome obj value.2
  | .optional key t ms, obj, value => by
    rw [Members.membersFromJson, Members.MembersAccept, ← ms.membersFromJson_isSome obj value.2]
    cases Object.find key obj with
    | none => exact (isSome_map_iff _ Iff.rfl).trans (by simp)
    | some v =>
      simp only [Option.some.injEq, forall_eq']
      cases v.isNull && !t.canDeserializeTypeFromJson v with
      | true => exact (isSome_map_iff _ Iff.rfl).trans (by simp)
      | false =>
        simp only [Bool.false_eq_true, if_false, forall_const]
        rw [← t.fromJson_isSome v (value.1.getD t.default)]
        exact isSome_bind_map_iff _ fun _ => Iff.rfl

end

/-! ## The test -/

theorem Underlying.covered_iff {u : Underlying} {values : List u.Carrier} {json : Value}
    (h : u.canDeserialize json = true) : u.Accepts json ↔ (Ty.enumeration u values).Covered json := by
  cases u with
  | boolean =>
    refine ⟨fun ha => ?_, False.elim⟩
    cases json <;> cases h <;> cases ha
  | integral a => exact ⟨fun _ => trivial, fun _ => h⟩
  | string => exact ⟨fun _ => trivial, fun _ => h⟩

theorem canDeserializeObject_isObject {lits : List (Bytes × Value)} {reqs : List Bytes} {json : Value}
    (h : canDeserializeObject lits reqs json = true) : ∃ obj, json = .object obj := by
  cases json with
  | object obj => exact ⟨obj, rfl⟩
  | _ => cases h

mutual

/-- What passes the test is decoded exactly when the rest that the test leaves open is. -/
theorem Ty.covered_iff : (t : Ty) → (json : Value) → t.canDeserializeTypeFromJson json = true →
    (t.Accepts json ↔ t.Covered json)
  | .null, _, _ => Iff.rfl
  | .bool, _, h => ⟨fun _ => trivial, fun _ => h⟩
  | .integral _, _, h => ⟨fun _ => trivial, fun _ => h⟩
  | .floating _, _, h => ⟨fun _ => trivial, fun _ => h⟩
  | .string, _, h => ⟨fun _ => trivial, fun _ => h⟩
  | .uri, json, h => by
    obtain ⟨obj, rfl⟩ := canDeserializeObject_isObject h
    exact ⟨fun ha => Bool.false_ne_true ha, False.elim⟩
  | .enumeration _ _, _, h => Underlying.covered_iff h
  | .nullable t, json, h => by
    rw [Ty.Accepts, Ty.Covered]
    rcases Bool.or_eq_true_iff.mp h with hn | ht
    · simp [hn]
    · rw [t.covered_iff json ht]
  | .nullableVariant ts, json, h => by
    rw [Ty.Accepts, Ty.Covered]
    rcases Bool.or_eq_true_iff.mp h with hn | ht
    · simp [hn]
    · rw [ts.alternativeCovered_iff json ht]
  | .vector t, json, h => by
    match json with
    | .array [] => exact ⟨fun _ => trivial, fun _ => by simp [Ty.Accepts]⟩
    | .array (v :: vs) => rw [Ty.Accepts, Ty.Covered, List.forall_mem_cons, t.covered_iff v h]
    | .null | .boolean _ | .integer _ | .decimal _ | .string _ | .object _ => cases h
  | .tuple ts, json, h => by
    match json with
    | .array vs =>
      rw [Ty.Accepts, Ty.Covered, forall_prop_of_true]
      exact of_decide_eq_true (Bool.and_eq_true_iff.mp h).1
    | .null | .boolean _ | .integer _ | .decimal _ | .string _ | .object _ => cases h
  | .strMap _ _, json, h => by
    obtain ⟨obj, rfl⟩ := canDeserializeObject_isObject h
    rfl
  | .variant ts, json, h => ts.alternativeCovered_iff json h
  | .structure _, json, h => by
    obtain ⟨obj, rfl⟩ := canDeserializeObject_isObject h
    rfl

theorem Tys.alternativeCovered_iff : (ts : Tys) → (json : Value) →
    (ts.deserializableVariantIndex json).isSome = true →
    (ts.AlternativeAccepts json ↔ ts.AlternativeCovered json)
  | .last t, json, h => by
    rw [Tys.deserializableVariantIndex] at h
    rw [Tys.AlternativeAccepts, Tys.AlternativeCovered]
    split at h
    · next hcan => rw [forall_prop_of_true hcan, t.covered_iff json hcan]
    · cases h
  | .more t ts, json, h => by
    rw [Tys.deserializableVariantIndex] at h
    rw [Tys.AlternativeAccepts, Tys.AlternativeCovered]
    split at h
    · next hcan => rw [if_pos hcan, if_pos hcan, t.covered_iff json hcan]
    · next hcan =>
      rw [if_neg hcan, if_neg hcan]
      exact ts.alternativeCovered_iff json (by simpa using h)

end

/-! ## Main result -/

/-- **Where the test vouches for the decoder.**  For every type and every value: the decoder goes
through on a value that passes exactly when what the test left open is of the right kind, and so
does the decoding of the alternative that `deserializableVariantIndex` chooses. -/
theorem Ty.probe_decodes_iff (t : Ty) (json : Value) (value : t.Val) :
    ((t.canDeserializeTypeFromJson json = true → (t.fromJson json value).isSome = true) ↔
        (t.canDeserializeTypeFromJson json = true → t.Covered json)) ∧
      ∀ (ts : Tys) (variant : Option ts.Any) (idx : Nat), ts.deserializableVariantIndex json = some idx →
        ((ts.alternativeFromJson json variant idx).isSome = true ↔ ts.AlternativeCovered json) := by
  refine ⟨forall_congr' fun hcan => ?_, fun ts variant idx hidx => ?_⟩
  · rw [t.fromJson_isSome json value, t.covered_iff json hcan]
  · rw [ts.alternativeFromJson_isSome json variant idx hidx, ts.alternativeCovered_iff json]
    rw [hidx, Option.isSome_some]

/-- `std::vector<int>` on `[1, "a"]` passes for its first element, `std::tuple<int, std::string>` on
`[1, 2]` for one of its elements; neither can be decoded. -/
theorem Ty.probe_not_decodes :
    let vector := Ty.vector (.integral .int)
    let tuple := Ty.tuple (.more (.integral .int) (.last .string))
    let mixed := Value.array [.integer 1, .string (bytes "a")]
    let pair := Value.array [.integer 1, .integer 2]
    (vector.canDeserializeTypeFromJson mixed = true ∧ vector.fromJson mixed vector.default = none) ∧
      (tuple.canDeserializeTypeFromJson pair = true ∧ tuple.fromJson pair tuple.default = none) :=
  ⟨⟨rfl, rfl⟩, rfl, rfl⟩

end Lsp
