import Mathlib.Data.List.Nodup
import LspFramework.Serialization.RoundTrip

/-!
# Structures

A structure is written member by member and decoded by asking for its members, so it survives JSON
when each of its members does.  An optional whose value is written as `null` is not taken for an empty
one: the type of such a value takes `null` (`Ty.takes_null`).

    (structure ms).RoundTrips v ↔ each member of v round-trips                (structure_roundTrips_iff)

Members of other names are ignored: then `v` is decoded from every object that has its members,
whatever else is in it.
-/

namespace Lsp

open Chars Lsp.Json Lsp.Json.Value

/-! ## Null -/

theorem Integral.isNull_toJson (a : Integral) (i : a.Carrier) : (a.toJson i).isNull = false := by
  unfold Integral.toJson
  split <;> rfl

mutual

/-- A type that writes `null` takes `null`. -/
theorem Ty.takes_null : (t : Ty) → (v : t.Val) → (t.toJson v).isNull = true →
    t.canDeserializeTypeFromJson (t.toJson v) = true
  | .null, _, _ => rfl
  | .bool, _, h => by cases h
  | .integral a, i, h => absurd h (Bool.eq_false_iff.mp (a.isNull_toJson i))
  | .floating _, _, h => by cases h
  | .string, _, h => by cases h
  | .uri, _, h => by cases h
  | .enumeration .boolean _, _, h => by cases h
  | .enumeration (.integral a) _, _, h => absurd h (Bool.eq_false_iff.mp (a.isNull_toJson _))
  | .enumeration .string _, _, h => by cases h
  | .nullable _, _, h => Bool.or_eq_true_iff.mpr (.inl h)
  | .nullableVariant _, _, h => Bool.or_eq_true_iff.mpr (.inl h)
  | .vector _, _, h => by cases h
  | .tuple _, _, h => by cases h
  | .strMap _ _, _, h => by cases h
  | .variant ts, v, h => ts.takes_null v h
  | .structure _, _, h => by cases h

theorem Tys.takes_null : (ts : Tys) → (v : ts.Any) → (ts.anyToJson v).isNull = true →
    (ts.deserializableVariantIndex (ts.anyToJson v)).isSome = true
  | .last t, v, h => by
    have hpass := t.takes_null v h
    change (Tys.deserializableVariantIndex (.last t) (t.toJson v)).isSome = true
    rw [Tys.variantIndex_last hpass]
    rfl
  | .more t ts, .inl v, h => by
    have hpass := t.takes_null v h
    change (Tys.deserializableVariantIndex (.more t ts) (t.toJson v)).isSome = true
    rw [Tys.variantIndex_first hpass]
    rfl
  | .more t ts, .inr v, h => by
    have hlater := ts.takes_null v h
    change (Tys.deserializableVariantIndex (.more t ts) (ts.anyToJson v)).isSome = true
    by_cases hpass : t.canDeserializeTypeFromJson (ts.anyToJson v) = true
    · rw [Tys.variantIndex_first hpass]
      rfl
    · rw [Tys.variantIndex_later hpass, Option.isSome_map]
      exact hlater

end

/-! ## Objects by their members -/

/-- An object in another order has keys of its own and, under each key, the same value reordered. -/
theorem reordered_object_iff {obj obj' : Object} (hobj : (obj.map Prod.fst).Nodup) :
    Reordered (.object obj) (.object obj') ↔ (obj'.map Prod.fst).Nodup ∧
      ∀ key, Option.Rel Reordered (Object.find key obj) (Object.find key obj') := by
  constructor
  · intro h
    constructor
    · cases h with
      | refl => exact hobj
      | object hperm hkeys hvs =>
        rw [← hkeys]
        exact (hperm.map Prod.fst).nodup_iff.mp hobj
    · intro key
      cases hfind : Object.find key obj with
      | none =>
        rw [h.find_none hfind]
        exact .none
      | some v =>
        obtain ⟨w, hw, hr⟩ := h.find_some hobj hfind
        rw [hw]
        exact .some hr
  · rintro ⟨hobj', hfind⟩
    -- the members of the first object in the order of the second
    let middle : Object := obj'.map fun m => (m.1, (Object.find m.1 obj).getD .null)
    have hvalue : ∀ m ∈ obj', ∃ v, Object.find m.1 obj = some v ∧ Reordered v m.2 := by
      intro m hm
      have hrel := hfind m.1
      rw [Object.find_of_mem hobj' hm] at hrel
      cases hv : Object.find m.1 obj with
      | none =>
        rw [hv] at hrel
        cases hrel
      | some v =>
        rw [hv] at hrel
        cases hrel with
        | some hr => exact ⟨v, rfl, hr⟩
    have hkeys : middle.map Prod.fst = obj'.map Prod.fst := by simp [middle, Function.comp_def]
    have hmiddle : (middle.map Prod.fst).Nodup := by
      rw [hkeys]
      exact hobj'
    have hperm : obj.Perm middle := by
      rw [List.perm_ext_iff_of_nodup (.of_map _ hobj) (.of_map _ hmiddle)]
      rintro ⟨key, v⟩
      constructor
      · intro hmem
        have hrel := hfind key
        rw [Object.find_of_mem hobj hmem] at hrel
        cases hw : Object.find key obj' with
        | none =>
          rw [hw] at hrel
          cases hrel
        | some w =>
          refine List.mem_map.mpr ⟨(key, w), Object.mem_of_find hw, ?_⟩
          rw [Object.find_of_mem hobj hmem]
          rfl
      · intro hmem
        obtain ⟨m, hm, heq⟩ := List.mem_map.mp hmem
        obtain ⟨u, hu, -⟩ := hvalue m hm
        rw [hu] at heq
        obtain ⟨rfl, rfl⟩ := Prod.mk.inj heq
        exact Object.mem_of_find hu
    refine .object hperm hkeys ?_
    rw [List.map_map, List.forall₂_map_left_iff, List.forall₂_map_right_iff, List.forall₂_same]
    intro m hm
    obtain ⟨v, hv, hr⟩ := hvalue m hm
    simpa [hv] using hr

/-! ## Members -/

def Members.keys : Members → List Bytes
  | .none => []
  | .required key _ ms => key :: ms.keys
  | .optional key _ ms => key :: ms.keys

theorem find_assign (key k : Bytes) (v : Value) (json : Object) :
    Object.find k (Object.assign key v json) = if k = key then some v else Object.find k json := by
  split
  · next hk => rw [hk, Object.find_assign_self]
  · next hk => rw [Object.find_assign_of_ne (Ne.symm hk)]

/-- What is written under a key; the last member of a name wins. -/
def Members.written : (ms : Members) → ms.Val → Bytes → Option Value
  | .none, _, _ => Option.none
  | .required key t ms, v, k =>
    (ms.written v.2 k).or (if k = key then Option.some (t.toJson v.1) else Option.none)
  | .optional key t ms, (Option.some v, vs), k =>
    (ms.written vs k).or (if k = key then Option.some (t.toJson v) else Option.none)
  | .optional _ _ ms, (Option.none, vs), k => ms.written vs k

/-- The object without the members of a name. -/
def without (key : Bytes) (obj : Object) : Object := obj.filter fun m => m.1 ≠ key

theorem find_without (key k : Bytes) (obj : Object) :
    Object.find k (without key obj) = if k = key then none else Object.find k obj := by
  induction obj with
  | nil => simp [without, Object.find]
  | cons m obj ih =>
    obtain ⟨k', v⟩ := m
    unfold without at ih ⊢
    by_cases hk' : k' = key
    · rw [List.filter_cons_of_neg (by simpa using hk'), ih]
      by_cases hk : k = key
      · rw [if_pos hk, if_pos hk]
      · have hne : k' ≠ k := fun heq => hk (heq ▸ hk')
        rw [if_neg hk, if_neg hk, Object.find, if_neg hne]
    · rw [List.filter_cons_of_pos (by simpa using hk'), Object.find, Object.find, ih]
      by_cases hk : k' = k
      · rw [if_pos hk, if_pos hk, if_neg (hk ▸ hk')]
      · rw [if_neg hk, if_neg hk]

theorem find_map_values (f : Bytes → Value) (obj : Object) (k : Bytes) :
    Object.find k (obj.map fun m => (m.1, f m.1)) = (Object.find k obj).map fun _ => f k := by
  induction obj with
  | nil => rfl
  | cons m obj ih =>
    obtain ⟨k', v⟩ := m
    rw [List.map_cons, Object.find, Object.find, ih]
    split
    · next hk => rw [hk]; rfl
    · rfl

theorem rel_refl (v : Option Value) : Option.Rel Reordered v v := by
  cases v with
  | none => exact .none
  | some v => exact .some (.refl v)

namespace Members

theorem find_membersToJson : (ms : Members) → (v : ms.Val) → (json : Object) → (k : Bytes) →
    Object.find k (ms.membersToJson v json) = (ms.written v k).or (Object.find k json)
  | .none, _, _, _ => rfl
  | .required key t ms, v, json, k => by
    rw [membersToJson, ms.find_membersToJson, find_assign, written, Option.or_assoc]
    split <;> rfl
  | .optional key t ms, (Option.some v, vs), json, k => by
    rw [membersToJson, ms.find_membersToJson, find_assign, written, Option.or_assoc]
    split <;> rfl
  | .optional _ _ ms, (Option.none, vs), json, k => ms.find_membersToJson vs json k

theorem find_toJson (ms : Members) (v : ms.Val) (k : Bytes) :
    Object.find k (ms.membersToJson v []) = ms.written v k := by
  rw [ms.find_membersToJson, Object.find, Option.or_none]

theorem nodup_membersToJson : (ms : Members) → (v : ms.Val) → (json : Object) →
    (json.map Prod.fst).Nodup → ((ms.membersToJson v json).map Prod.fst).Nodup
  | .none, _, _, h => h
  | .required _ _ ms, v, _, h => ms.nodup_membersToJson v.2 _ (Object.nodup_assign h)
  | .optional _ _ ms, (Option.some _, vs), _, h => ms.nodup_membersToJson vs _ (Object.nodup_assign h)
  | .optional _ _ ms, (Option.none, vs), _, h => ms.nodup_membersToJson vs _ h

theorem nodup_toJson (ms : Members) (v : ms.Val) : ((ms.membersToJson v []).map Prod.fst).Nodup :=
  ms.nodup_membersToJson v [] List.nodup_nil

theorem written_of_notMem : (ms : Members) → (v : ms.Val) → (k : Bytes) → k ∉ ms.keys →
    ms.written v k = Option.none
  | .none, _, _, _ => rfl
  | .required key t ms, v, k, h => by
    rw [keys, List.mem_cons, not_or] at h
    rw [written, ms.written_of_notMem v.2 k h.2, if_neg h.1]
    rfl
  | .optional key t ms, (Option.some v, vs), k, h => by
    rw [keys, List.mem_cons, not_or] at h
    rw [written, ms.written_of_notMem vs k h.2, if_neg h.1]
    rfl
  | .optional key t ms, (Option.none, vs), k, h => by
    rw [keys, List.mem_cons, not_or] at h
    exact ms.written_of_notMem vs k h.2

/-- Decoding asks for the members of the structure only. -/
theorem membersFromJson_congr : (ms : Members) → (obj obj' : Object) → (v : ms.Val) →
    (∀ k ∈ ms.keys, Object.find k obj = Object.find k obj') →
    ms.membersFromJson obj v = ms.membersFromJson obj' v
  | .none, _, _, _, _ => rfl
  | .required key t ms, obj, obj', v, h => by
    rw [membersFromJson, membersFromJson, h key List.mem_cons_self,
      ms.membersFromJson_congr obj obj' v.2 fun k hk => h k (List.mem_cons_of_mem _ hk)]
  | .optional key t ms, obj, obj', v, h => by
    rw [membersFromJson, membersFromJson, h key List.mem_cons_self,
      ms.membersFromJson_congr obj obj' v.2 fun k hk => h k (List.mem_cons_of_mem _ hk)]

/-! ## Members that survive -/

/-- The object is decoded to a value that is written like `v` and holds the same alternatives. -/
def Reads (ms : Members) (v : ms.Val) (obj : Object) : Prop :=
  ∃ v', ms.membersFromJson obj ms.default = Option.some v' ∧
    (∀ k ∈ ms.keys, Option.Rel Reordered (ms.written v k) (ms.written v' k)) ∧ ms.SameAlternatives v v'

/-- The object has the members that are written for `v`, and no others of the structure. -/
def Holds (ms : Members) (v : ms.Val) (obj : Object) : Prop :=
  ∀ k ∈ ms.keys, Option.Rel Reordered (ms.written v k) (Object.find k obj)

def Survives (ms : Members) (v : ms.Val) : Prop := ∀ obj, ms.Holds v obj → ms.Reads v obj

/-- Each member that is there round-trips. -/
def EachRoundTrips : (ms : Members) → ms.Val → Prop
  | .none, _ => True
  | .required _ t ms, v => t.RoundTrips v.1 ∧ ms.EachRoundTrips v.2
  | .optional _ t ms, (Option.some v, vs) => t.RoundTrips v ∧ ms.EachRoundTrips vs
  | .optional _ _ ms, (Option.none, vs) => ms.EachRoundTrips vs

section First

variable {key : Bytes} {t : Ty} {ms : Members} (hkey : key ∉ ms.keys)
include hkey

theorem written_first (v : ms.Val) (json : Option Value) :
    (ms.written v key).or (if key = key then json else Option.none) = json := by
  rw [ms.written_of_notMem v key hkey, if_pos rfl, Option.none_or]

theorem written_behind (v : ms.Val) (json : Option Value) {k : Bytes} (hk : k ∈ ms.keys) :
    (ms.written v k).or (if k = key then json else Option.none) = ms.written v k := by
  have hne : k ≠ key := fun heq => hkey (heq ▸ hk)
  rw [if_neg hne, Option.or_none]

/-- An object that has what is written under the first key and under the keys behind it. -/
theorem holds_first_iff (v : ms.Val) (json : Option Value) (obj : Object) :
    (∀ k ∈ key :: ms.keys, Option.Rel Reordered
      ((ms.written v k).or (if k = key then json else Option.none)) (Object.find k obj)) ↔
      Option.Rel Reordered json (Object.find key obj) ∧ ms.Holds v obj := by
  rw [List.forall_mem_cons, written_first hkey]
  refine and_congr_right fun _ => forall₂_congr fun k hk => ?_
  rw [written_behind hkey v json hk]

theorem rel_first_iff (v v' : ms.Val) (json json' : Option Value) :
    (∀ k ∈ key :: ms.keys, Option.Rel Reordered
      ((ms.written v k).or (if k = key then json else Option.none))
      ((ms.written v' k).or (if k = key then json' else Option.none))) ↔
      Option.Rel Reordered json json' ∧ ∀ k ∈ ms.keys, Option.Rel Reordered (ms.written v k) (ms.written v' k) := by
  rw [List.forall_mem_cons, written_first hkey, written_first hkey]
  refine and_congr_right fun _ => forall₂_congr fun k hk => ?_
  rw [written_behind hkey v json hk, written_behind hkey v' json' hk]

theorem find_behind (json : Value) (obj : Object) {k : Bytes} (hk : k ∈ ms.keys) :
    Object.find k (Object.assign key json obj) = Object.find k obj := by
  have hne : k ≠ key := fun heq => hkey (heq ▸ hk)
  rw [find_assign, if_neg hne]

/-- The members behind the first one are read whatever is under its key. -/
theorem reads_assign_iff (v : ms.Val) (json : Value) (obj : Object) :
    ms.Reads v (Object.assign key json obj) ↔ ms.Reads v obj := by
  unfold Reads
  rw [ms.membersFromJson_congr _ obj _ fun k hk => find_behind hkey json obj hk]

theorem holds_assign_iff (v : ms.Val) (json : Value) (obj : Object) :
    ms.Holds v (Object.assign key json obj) ↔ ms.Holds v obj := by
  refine forall₂_congr fun k hk => ?_
  rw [find_behind hkey json obj hk]

/-- A first member that is read in every object exactly when `p` holds of what is under its key. -/
theorem survives_first_iff {ms' : Members} {v' : ms'.Val} {v : ms.Val} {json : Value} {p : Value → Prop}
    (hholds : ∀ obj, ms'.Holds v' obj ↔
      Option.Rel Reordered (Option.some json) (Object.find key obj) ∧ ms.Holds v obj)
    (hreads : ∀ obj w, Object.find key obj = Option.some w → Reordered json w →
      (ms'.Reads v' obj ↔ p w ∧ ms.Reads v obj)) :
    ms'.Survives v' ↔ (∀ w, Reordered json w → p w) ∧ ms.Survives v := by
  constructor
  · intro h
    constructor
    · intro w hw
      have hfind := Object.find_assign_self key w (ms.membersToJson v [])
      refine ((hreads _ w hfind hw).mp (h _ ((hholds _).mpr ⟨?_, ?_⟩))).1
      · rw [hfind]
        exact .some hw
      · refine (holds_assign_iff hkey v w _).mpr fun k _ => ?_
        rw [ms.find_toJson]
        exact rel_refl _
    · intro obj hobj
      have hfind := Object.find_assign_self key json obj
      refine (reads_assign_iff hkey v json obj).mp ((hreads _ json hfind (.refl _)).mp (h _ ((hholds _).mpr ⟨?_, ?_⟩))).2
      · rw [hfind]
        exact .some (.refl _)
      · exact (holds_assign_iff hkey v json obj).mpr hobj
  · rintro ⟨hp, hms⟩ obj hobj
    obtain ⟨hfirst, hrest⟩ := (hholds obj).mp hobj
    obtain ⟨w, hw, hr⟩ : ∃ w, Object.find key obj = Option.some w ∧ Reordered json w := by
      cases hw : Object.find key obj with
      | none =>
        rw [hw] at hfirst
        cases hfirst
      | some w =>
        rw [hw] at hfirst
        cases hfirst with
        | some hr => exact ⟨w, rfl, hr⟩
    exact (hreads obj w hw hr).mpr ⟨hp w hr, hms obj hrest⟩

theorem required_survives_iff (x : t.Val) (xs : ms.Val) :
    (required key t ms).Survives (x, xs) ↔ t.RoundTrips x ∧ ms.Survives xs := by
  refine survives_first_iff hkey (p := t.DecodesLike x) (holds_first_iff hkey xs _) fun obj w hw _ => ?_
  constructor
  · rintro ⟨v', hdec, hrel, hsame⟩
    rw [membersFromJson, hw, Option.bind_some] at hdec
    obtain ⟨x', hx', hdec⟩ := Option.bind_eq_some_iff.mp hdec
    obtain ⟨xs', hxs', rfl⟩ := Option.map_eq_some_iff.mp hdec
    obtain ⟨hfirst, hrest⟩ := (rel_first_iff hkey xs xs' _ _).mp hrel
    cases hfirst with
    | some hfirst => exact ⟨⟨x', hx', hfirst, hsame.1⟩, xs', hxs', hrest, hsame.2⟩
  · rintro ⟨⟨x', hx', hfirst, hsame⟩, xs', hxs', hrest, hsames⟩
    refine ⟨(x', xs'), ?_, (rel_first_iff hkey xs xs' _ _).mpr ⟨.some hfirst, hrest⟩, hsame, hsames⟩
    rw [membersFromJson, hw, Option.bind_some]
    exact Option.bind_eq_some_iff.mpr ⟨x', hx', Option.map_eq_some_iff.mpr ⟨xs', hxs', rfl⟩⟩

theorem some_survives_iff (x : t.Val) (xs : ms.Val) :
    (optional key t ms).Survives (Option.some x, xs) ↔ t.RoundTrips x ∧ ms.Survives xs := by
  have hholds : ∀ obj, (optional key t ms).Holds (Option.some x, xs) obj ↔
      Option.Rel Reordered (Option.some (t.toJson x)) (Object.find key obj) ∧ ms.Holds xs obj :=
    holds_first_iff hkey xs _
  rw [survives_first_iff hkey
    (p := fun w => ¬(w.isNull && !t.canDeserializeTypeFromJson w) = true ∧ t.DecodesLike x w) hholds]
  · refine and_congr_left' ?_
    constructor
    · exact fun h w hw => (h w hw).2
    · intro hx w hw
      refine ⟨?_, hx w hw⟩
      rw [← hw.isNull_eq, ← t.canDeserialize_reordered hw]
      simpa using t.takes_null x
  · intro obj w hw _
    constructor
    · rintro ⟨⟨x', xs'⟩, hdec, hrel, hsame⟩
      rw [membersFromJson, hw] at hdec
      dsimp only at hdec
      split at hdec
      · -- an empty optional, for which nothing is written
        obtain ⟨xs', hxs', heq⟩ := Option.map_eq_some_iff.mp hdec
        obtain ⟨rfl, rfl⟩ := Prod.mk.inj heq
        have hfirst := hrel key List.mem_cons_self
        rw [written, written_first hkey, written, ms.written_of_notMem _ key hkey] at hfirst
        cases hfirst
      · next hnull =>
        obtain ⟨x', hx', hdec⟩ := Option.bind_eq_some_iff.mp hdec
        obtain ⟨xs', hxs', heq⟩ := Option.map_eq_some_iff.mp hdec
        obtain ⟨rfl, rfl⟩ := Prod.mk.inj heq
        obtain ⟨hfirst, hrest⟩ := (rel_first_iff hkey xs xs' _ _).mp hrel
        cases hfirst with
        | some hfirst => exact ⟨⟨hnull, x', hx', hfirst, hsame.1⟩, xs', hxs', hrest, hsame.2⟩
    · rintro ⟨⟨hnull, x', hx', hfirst, hsame⟩, xs', hxs', hrest, hsames⟩
      refine ⟨(Option.some x', xs'), ?_, (rel_first_iff hkey xs xs' _ _).mpr ⟨.some hfirst, hrest⟩, hsame, hsames⟩
      rw [membersFromJson, hw]
      dsimp only
      rw [if_neg hnull]
      exact Option.bind_eq_some_iff.mpr ⟨x', hx', Option.map_eq_some_iff.mpr ⟨xs', hxs', rfl⟩⟩

theorem none_survives_iff (xs : ms.Val) :
    (optional key t ms).Survives (Option.none, xs) ↔ ms.Survives xs := by
  have hreads : ∀ obj, Object.find key obj = Option.none →
      ((optional key t ms).Reads (Option.none, xs) obj ↔ ms.Reads xs obj) := by
    intro obj hfind
    have hfirst : ∀ v' : ms.Val, (optional key t ms).written (Option.none, v') key = Option.none := fun v' =>
      ms.written_of_notMem v' key hkey
    constructor
    · rintro ⟨⟨x', xs'⟩, hdec, hrel, hsame⟩
      rw [membersFromJson, hfind] at hdec
      obtain ⟨xs', hxs', heq⟩ := Option.map_eq_some_iff.mp hdec
      obtain ⟨rfl, rfl⟩ := Prod.mk.inj heq
      exact ⟨xs', hxs', fun k hk => hrel k (List.mem_cons_of_mem _ hk), hsame⟩
    · rintro ⟨xs', hxs', hrest, hsames⟩
      refine ⟨(Option.none, xs'), ?_, List.forall_mem_cons.mpr ⟨?_, hrest⟩, hsames⟩
      · rw [membersFromJson, hfind]
        exact Option.map_eq_some_iff.mpr ⟨xs', hxs', rfl⟩
      · rw [hfirst, hfirst]
        exact .none
  constructor
  · intro h obj hobj
    have hsame : ∀ k ∈ ms.keys, Object.find k (without key obj) = Object.find k obj := by
      intro k hk
      have hne : k ≠ key := fun heq => hkey (heq ▸ hk)
      rw [find_without, if_neg hne]
    have hfind : Object.find key (without key obj) = Option.none := by rw [find_without, if_pos rfl]
    have hread := (hreads _ hfind).mp (h _ (List.forall_mem_cons.mpr ⟨?_, fun k hk => ?_⟩))
    · unfold Reads at hread ⊢
      rwa [ms.membersFromJson_congr _ obj _ hsame] at hread
    · rw [hfind]
      show Option.Rel Reordered (ms.written xs key) Option.none
      rw [ms.written_of_notMem xs key hkey]
      exact .none
    · rw [hsame k hk]
      exact hobj k hk
  · intro h obj hobj
    obtain ⟨hfirst, hrest⟩ := List.forall_mem_cons.mp hobj
    refine (hreads obj ?_).mpr (h obj hrest)
    rw [written, ms.written_of_notMem xs key hkey] at hfirst
    cases hfind : Object.find key obj with
    | none => rfl
    | some w =>
      rw [hfind] at hfirst
      cases hfirst

end First

theorem survives_iff : (ms : Members) → ms.keys.Nodup → (v : ms.Val) → (ms.Survives v ↔ ms.EachRoundTrips v)
  | .none, _, _ => by
    refine ⟨fun _ => trivial, fun _ obj _ => ⟨(), rfl, ?_, trivial⟩⟩
    intro k hk
    cases hk
  | .required key t ms, h, (x, xs) => by
    obtain ⟨hkey, hkeys⟩ := List.nodup_cons.mp h
    rw [required_survives_iff hkey, ms.survives_iff hkeys xs]
    rfl
  | .optional key t ms, h, (Option.some x, xs) => by
    obtain ⟨hkey, hkeys⟩ := List.nodup_cons.mp h
    rw [some_survives_iff hkey, ms.survives_iff hkeys xs]
    rfl
  | .optional key t ms, h, (Option.none, xs) => by
    obtain ⟨hkey, hkeys⟩ := List.nodup_cons.mp h
    rw [none_survives_iff hkey, ms.survives_iff hkeys xs]
    rfl

/-- What is written for two values is the same, in some order, when it is under each key. -/
theorem reordered_membersToJson_iff {ms : Members} {v v' : ms.Val} :
    Reordered (.object (ms.membersToJson v [])) (.object (ms.membersToJson v' [])) ↔
      ∀ k ∈ ms.keys, Option.Rel Reordered (ms.written v k) (ms.written v' k) := by
  rw [reordered_object_iff (ms.nodup_toJson v)]
  constructor
  · rintro ⟨-, h⟩ k -
    rw [← ms.find_toJson, ← ms.find_toJson]
    exact h k
  · intro h
    refine ⟨ms.nodup_toJson v', fun k => ?_⟩
    rw [ms.find_toJson, ms.find_toJson]
    by_cases hk : k ∈ ms.keys
    · exact h k hk
    · rw [ms.written_of_notMem v k hk, ms.written_of_notMem v' k hk]
      exact .none

end Members

/-! ## Structures -/

section Structure

variable {ms : Members} {v : ms.Val}

theorem structure_decodesLike_iff {obj : Object} :
    (Ty.structure ms).DecodesLike v (.object obj) ↔ ms.Reads v obj :=
  exists_congr fun _ => and_congr_right fun _ => and_congr_left fun _ => Members.reordered_membersToJson_iff

theorem structure_roundTrips_iff_survives : (Ty.structure ms).RoundTrips v ↔ ms.Survives v := by
  constructor
  · intro h obj hobj
    -- the members that are written, in the order they are written in, with the values of the object
    let f : Bytes → Value := fun k => (Object.find k obj).getD .null
    have hfind : ∀ k, Object.find k ((ms.membersToJson v []).map fun m => (m.1, f m.1)) =
        (ms.written v k).map fun _ => f k := by
      intro k
      rw [find_map_values, ms.find_toJson]
    have hsame : ∀ k ∈ ms.keys, Object.find k ((ms.membersToJson v []).map fun m => (m.1, f m.1)) =
        Object.find k obj := by
      intro k hk
      have hrel := hobj k hk
      rw [hfind]
      show (ms.written v k).map (fun _ => (Object.find k obj).getD .null) = _
      generalize ms.written v k = w at hrel
      generalize Object.find k obj = w' at hrel
      cases hrel <;> rfl
    have hre : Reordered (.object (ms.membersToJson v []))
        (.object ((ms.membersToJson v []).map fun m => (m.1, f m.1))) := by
      rw [reordered_object_iff (ms.nodup_toJson v)]
      constructor
      · rw [List.map_map]
        exact ms.nodup_toJson v
      · intro k
        rw [ms.find_toJson]
        by_cases hk : k ∈ ms.keys
        · rw [hsame k hk]
          exact hobj k hk
        · rw [hfind, ms.written_of_notMem v k hk]
          exact .none
    have hread := structure_decodesLike_iff.mp (h _ hre)
    unfold Members.Reads at hread ⊢
    rwa [ms.membersFromJson_congr _ obj _ hsame] at hread
  · intro h json hjson
    obtain ⟨obj, rfl⟩ : ∃ obj, json = .object obj := by
      cases hjson <;> exact ⟨_, rfl⟩
    refine structure_decodesLike_iff.mpr (h obj fun k _ => ?_)
    have hrel := ((reordered_object_iff (ms.nodup_toJson v)).mp hjson).2 k
    rwa [ms.find_toJson] at hrel

end Structure

/-- **A structure round-trips exactly when each of its members does**; it is then decoded from every
object that has what is written for its members, whatever other members the object has. -/
theorem structure_roundTrips_iff (ms : Members) (hkeys : ms.keys.Nodup) (v : ms.Val) :
    ((Ty.structure ms).RoundTrips v ↔ ms.EachRoundTrips v) ∧
    (ms.EachRoundTrips v → ∀ obj, ms.Holds v obj → (Ty.structure ms).DecodesLike v (.object obj)) := by
  rw [structure_roundTrips_iff_survives, ms.survives_iff hkeys v]
  refine ⟨.rfl, fun h obj hobj => structure_decodesLike_iff.mpr ?_⟩
  exact (ms.survives_iff hkeys v).mpr h obj hobj

/-- A name, and an optional that holds the value `null`. -/
theorem structure_roundTrips_null :
    (Ty.structure (.required (bytes "name") .string (.optional (bytes "data") (.nullable .bool) .none))).RoundTrips
      ((bytes "a", Option.some Option.none, ()) : Bytes × Option (Option Bool) × Unit) :=
  (structure_roundTrips_iff (.required (bytes "name") .string (.optional (bytes "data") (.nullable .bool) .none))
    (by decide) _).1.mpr
    ⟨Ty.roundTrips_of_recoverable .string trivial _ trivial trivial,
      Ty.roundTrips_of_recoverable (.nullable .bool) trivial Option.none trivial trivial, trivial⟩

end Lsp
