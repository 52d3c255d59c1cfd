import Mathlib.Data.List.Perm.Basic
import LspFramework.Lib.Fallible
import LspFramework.Serialization.Serialization

/-!
# What is written

Facts about `toJson` and about the values it gives, which may come back with the members of their
objects in another order (`Reordered`).

* `Ty.canDeserialize_reordered`: the type test does not depend on that order.
* `Integral.Fits`, `Underlying.decode`: an integer above the range of `Integer` is written as a
  `Decimal`; it is decoded to an integer written the same way if its type has the rounded number.
* `reordered_members`, `Ty.fromJson_strMap`: the members of a written map, and what they are decoded to.
-/

namespace Lsp

open Chars Fallible Lsp.Json Lsp.Json.Value

/-! ## The type test and the order of members -/

theorem canDeserializeObject_reordered {v w : Value} (h : Reordered v w) (reqs : List Bytes) :
    canDeserializeObject [] reqs v = canDeserializeObject [] reqs w := by
  cases h with
  | refl => rfl
  | array h => rfl
  | @object ms ms' ns hperm hk hvs =>
    have hcontains : ∀ key, Object.contains key ms = Object.contains key ns := by
      intro key
      rw [Bool.eq_iff_iff, Object.contains_iff, Object.contains_iff, (hperm.map Prod.fst).mem_iff, hk]
    simp only [canDeserializeObject, hasRequiredProperties, hcontains]
    rfl

mutual

/-- The test does not depend on the order of members. -/
theorem Ty.canDeserialize_reordered : (t : Ty) → {v w : Value} → Reordered v w →
    t.canDeserializeTypeFromJson v = t.canDeserializeTypeFromJson w
  | .null, _, _, h => by cases h <;> rfl
  | .bool, _, _, h => by cases h <;> rfl
  | .integral _, _, _, h => by cases h <;> rfl
  | .floating _, _, _, h => by cases h <;> rfl
  | .string, _, _, h => by cases h <;> rfl
  | .uri, _, _, h => canDeserializeObject_reordered h []
  | .enumeration u _, _, _, h => by cases u <;> cases h <;> rfl
  | .nullable t, v, w, h => by
    rw [Ty.canDeserializeTypeFromJson, Ty.canDeserializeTypeFromJson, h.isNull_eq,
      t.canDeserialize_reordered h]
  | .nullableVariant ts, _, _, h => by
    rw [Ty.canDeserializeTypeFromJson, Ty.canDeserializeTypeFromJson, h.isNull_eq,
      ts.variantIndex_reordered h]
  | .vector t, _, _, h => by
    cases h with
    | refl => rfl
    | array h =>
      cases h with
      | nil => rfl
      | cons h _ => exact t.canDeserialize_reordered h
    | object _ _ _ => rfl
  | .tuple ts, _, _, h => by
    cases h with
    | refl => rfl
    | array h =>
      rw [Ty.canDeserializeTypeFromJson, Ty.canDeserializeTypeFromJson, h.length_eq,
        ts.tuple_reordered h]
    | object _ _ _ => rfl
  | .strMap _ _, _, _, h => canDeserializeObject_reordered h []
  | .variant ts, _, _, h => by
    rw [Ty.canDeserializeTypeFromJson, Ty.canDeserializeTypeFromJson, ts.variantIndex_reordered h]
  | .structure ms, _, _, h => canDeserializeObject_reordered h ms.requiredProperties

theorem Tys.tuple_reordered : (ts : Tys) → {vs ws : List Value} → List.Forall₂ Reordered vs ws →
    ts.canDeserializeTupleFromJson vs = ts.canDeserializeTupleFromJson ws
  | .last _, _, _, .nil => rfl
  | .last t, _, _, .cons h _ => t.canDeserialize_reordered h
  | .more _ _, _, _, .nil => rfl
  | .more t ts, _, _, .cons h hs => by
    rw [Tys.canDeserializeTupleFromJson, Tys.canDeserializeTupleFromJson, t.canDeserialize_reordered h,
      ts.tuple_reordered hs]

theorem Tys.variantIndex_reordered : (ts : Tys) → {v w : Value} → Reordered v w →
    ts.deserializableVariantIndex v = ts.deserializableVariantIndex w
  | .last t, _, _, h => by
    rw [Tys.deserializableVariantIndex, Tys.deserializableVariantIndex, t.canDeserialize_reordered h]
  | .more t ts, _, _, h => by
    rw [Tys.deserializableVariantIndex, Tys.deserializableVariantIndex, t.canDeserialize_reordered h,
      ts.variantIndex_reordered h]

end

section

variable {t : Ty} {ts : Tys} {json : Value}

theorem Tys.variantIndex_last (h : t.canDeserializeTypeFromJson json = true) :
    (Tys.last t).deserializableVariantIndex json = some 0 := if_pos h

theorem Tys.variantIndex_first (h : t.canDeserializeTypeFromJson json = true) :
    (Tys.more t ts).deserializableVariantIndex json = some 0 := if_pos h

/-- Behind an alternative that does not pass, the index is counted among the others. -/
theorem Tys.variantIndex_later (h : ¬ t.canDeserializeTypeFromJson json = true) :
    (Tys.more t ts).deserializableVariantIndex json = (ts.deserializableVariantIndex json).map (· + 1) := if_neg h

end

/-! ## Integers -/

/-- A value written as a `Decimal` is rounded to a number its type has. -/
def Integral.Fits (a : Integral) (i : a.Carrier) : Prop :=
  i.val ≤ Int32.maxValue.toInt ∨ ∃ t, (Binary64.ofInt i.val).truncate = some t ∧ t ≤ a.max

def Underlying.Fits : (u : Underlying) → u.Carrier → Prop
  | .integral a, i => a.Fits i
  | _, _ => True

theorem Integral.bounds (a : Integral) : a.min ≤ 0 ∧ 2 ^ 31 - 1 ≤ a.max ∧ a.max < 2 ^ 64 := by
  cases a <;> decide

/-- The low 32 bits of an integer up to the largest `Integer` are a value of the type. -/
theorem Integral.wrapped_bounds {a : Integral} {i : Int} (hlo : a.min ≤ i) (h : i ≤ Int32.maxValue.toInt) :
    a.min ≤ (Int32.ofInt i).toInt ∧ (Int32.ofInt i).toInt ≤ a.max := by
  have hmax : Int32.maxValue.toInt = 2 ^ 31 - 1 := rfl
  have hmin : Int32.minValue.toInt = -2 ^ 31 := rfl
  have hbounds := a.bounds
  have hup := Int32.toInt_le (Int32.ofInt i)
  have hlow := Int32.minValue_le_toInt (Int32.ofInt i)
  refine ⟨?_, by omega⟩
  rcases Int.lt_or_le i 0 with hneg | hpos
  · have hsigned : a.min ≤ -2 ^ 31 := by
      cases a <;> simp only [Integral.min] at hlo ⊢ <;> omega
    omega
  · rw [Int32.toInt_ofInt_of_le (by omega) (by omega)]
    exact hlo

theorem Integral.toJson_of_le {a : Integral} {i : a.Carrier} (h : i.val ≤ Int32.maxValue.toInt) :
    a.toJson i = .integer (Int32.ofInt i.val) := if_pos h

theorem Integral.toJson_of_gt {a : Integral} {i : a.Carrier} (h : ¬ i.val ≤ Int32.maxValue.toInt) :
    a.toJson i = .decimal (Binary64.ofInt i.val) := if_neg h

theorem Integral.decode_integer {a : Integral} (i : a.Carrier) (h : i.val ≤ Int32.maxValue.toInt) :
    ∃ y, (a.toJson i).number?.map a.ofNumber = some y ∧ a.toJson y = a.toJson i := by
  have hmax : Int32.maxValue.toInt = 2 ^ 31 - 1 := rfl
  have hmin : Int32.minValue.toInt = -2 ^ 31 := rfl
  have hup := Int32.toInt_le (Int32.ofInt i.val)
  have hlo := Int32.minValue_le_toInt (Int32.ofInt i.val)
  have htrunc := Binary64.truncate_ofInt (i := (Int32.ofInt i.val).toInt) (by omega)
  have hbounds := Integral.wrapped_bounds i.property.1 h
  have hval : (a.ofNumber (Binary64.ofInt (Int32.ofInt i.val).toInt)).val = (Int32.ofInt i.val).toInt := by
    simp only [ofNumber, Binary64.toInteger, htrunc, hbounds, and_self, if_true]
  refine ⟨a.ofNumber (Binary64.ofInt (Int32.ofInt i.val).toInt), ?_, ?_⟩
  · rw [toJson_of_le h]
    rfl
  · rw [toJson_of_le h, toJson_of_le (by omega), hval, Int32.ofInt_toInt]

/-- The number a `Decimal` stands for, which the written integer is rounded to. -/
theorem Integral.rounded {a : Integral} (i : a.Carrier) (h : ¬ i.val ≤ Int32.maxValue.toInt) :
    ∃ t, (Binary64.ofInt i.val).truncate = some t ∧ Binary64.ofInt t = Binary64.ofInt i.val ∧
      Int32.maxValue.toInt < t := by
  have hmax : Int32.maxValue.toInt = 2 ^ 31 - 1 := rfl
  rcases Int.lt_or_le i.val (2 ^ 53) with hlt | hge
  · exact ⟨i.val, Binary64.truncate_ofInt (by omega), rfl, by omega⟩
  · obtain ⟨t, ht, heq, hlo⟩ := Binary64.ofInt_truncate hge (by have := i.property.2; have := a.bounds; omega)
    exact ⟨t, ht, heq, by omega⟩

theorem Integral.decode_decimal {a : Integral} (i : a.Carrier) (h : ¬ i.val ≤ Int32.maxValue.toInt) :
    ∃ y, (a.toJson i).number?.map a.ofNumber = some y ∧ (a.toJson y = a.toJson i ↔ a.Fits i) := by
  have hmax : Int32.maxValue.toInt = 2 ^ 31 - 1 := rfl
  obtain ⟨t, ht, heq, hlo⟩ := Integral.rounded i h
  refine ⟨a.ofNumber (Binary64.ofInt i.val), by rw [toJson_of_gt h]; rfl, ?_⟩
  rw [toJson_of_gt h]
  have hbounds := a.bounds
  by_cases hfits : t ≤ a.max
  · have hval : (a.ofNumber (Binary64.ofInt i.val)).val = t := by
      simp only [ofNumber, Binary64.toInteger, ht, hfits, (by omega : a.min ≤ t), and_self, if_true]
    rw [toJson_of_gt (by omega), hval, heq]
    exact ⟨fun _ => .inr ⟨t, ht, hfits⟩, fun _ => rfl⟩
  · have hval : (a.ofNumber (Binary64.ofInt i.val)).val = a.min := by
      simp only [ofNumber, Binary64.toInteger, ht, hfits, and_false, if_false]
    rw [toJson_of_le (by omega)]
    refine ⟨nofun, ?_⟩
    rintro (hle | ⟨t', ht', hle⟩)
    · exact absurd hle h
    · rw [ht, Option.some.injEq] at ht'
      exact absurd (ht' ▸ hle) hfits

/-- An integer is decoded to one that is written the same way, if its type has the written number. -/
theorem Integral.decode (a : Integral) (i : a.Carrier) :
    ∃ y, (a.toJson i).number?.map a.ofNumber = some y ∧ (a.toJson y = a.toJson i ↔ a.Fits i) := by
  by_cases h : i.val ≤ Int32.maxValue.toInt
  · obtain ⟨y, hy, heq⟩ := Integral.decode_integer i h
    exact ⟨y, hy, fun _ => .inl h, fun _ => heq⟩
  · exact Integral.decode_decimal i h

theorem Underlying.decode (u : Underlying) (c : u.Carrier) :
    ∃ y, u.fromJson (u.toJson c) = some y ∧ (u.toJson y = u.toJson c ↔ u.Fits c) := by
  cases u with
  | boolean => exact ⟨c, rfl, fun _ => trivial, fun _ => rfl⟩
  | integral a => exact a.decode c
  | string => exact ⟨c, rfl, fun _ => trivial, fun _ => rfl⟩

theorem Integral.reordered_toJson {a : Integral} {i : a.Carrier} {w : Value} (h : Reordered (a.toJson i) w) :
    w = a.toJson i := by
  by_cases hi : i.val ≤ Int32.maxValue.toInt
  · rw [toJson_of_le hi] at h ⊢
    cases h
    rfl
  · rw [toJson_of_gt hi] at h ⊢
    cases h
    rfl

theorem Underlying.reordered_toJson {u : Underlying} {c : u.Carrier} {w : Value}
    (h : Reordered (u.toJson c) w) : w = u.toJson c := by
  cases u with
  | integral a => exact Integral.reordered_toJson h
  | _ =>
    cases h
    rfl

/-! ## Maps -/

theorem objectOfEntries_eq {es : List (Bytes × Value)} (h : (es.map Prod.fst).Nodup) :
    objectOfEntries .string es = es := by
  suffices ∀ acc : Object, (acc.map Prod.fst ++ es.map Prod.fst).Nodup →
      es.foldl (fun result e => Object.assign e.1 e.2 result) acc = acc ++ es from this [] h
  clear h
  induction es with
  | nil => simp
  | cons e es ih =>
    intro acc hacc
    have hnew : e.1 ∉ acc.map Prod.fst := fun hmem =>
      (List.nodup_append.mp hacc).2.2 e.1 hmem e.1 List.mem_cons_self rfl
    have hassign : Object.assign e.1 e.2 acc = acc ++ [e] := by
      simpa [Object.assign] using Object.assign_append_of_notMem hnew e.2 []
    rw [List.foldl_cons, hassign, ih, List.append_assoc, List.singleton_append]
    simpa using hacc

/-- Members with new keys are decoded into default values and put behind the entries of the map. -/
theorem foldlM_assign_iff {V : Type} (decode : Value → V → Option V) (d : V) {ns : List (Bytes × Value)}
    {m m' : StrMap Bytes V} (h : (m.entries.map Prod.fst ++ ns.map Prod.fst).Nodup) :
    ns.foldlM (fun m n => (decode n.2 ((m.find n.1).getD d)).map (m.assign n.1)) m = some m' ↔
      ∃ es, m'.entries = m.entries ++ es ∧
        List.Forall₂ (fun n e => n.1 = e.1 ∧ decode n.2 d = some e.2) ns es := by
  induction ns generalizing m with
  | nil =>
    simp only [List.foldlM_nil, List.forall₂_nil_left_iff, exists_eq_right, List.append_nil]
    show some m = some m' ↔ _
    rw [Option.some.injEq, StrMap.ext_iff, eq_comm]
  | cons n ns ih =>
    have hnew : n.1 ∉ m.entries.map Prod.fst := fun hmem =>
      (List.nodup_append.mp h).2.2 n.1 hmem n.1 List.mem_cons_self rfl
    have hentries : ∀ v, (m.assign n.1 v).entries = m.entries ++ [(n.1, v)] := fun v =>
      StrMap.assignEntries_of_notMem hnew v
    rw [List.foldlM_cons, StrMap.find_of_notMem hnew, Option.getD_none]
    show ((decode n.2 d).map (m.assign n.1)).bind _ = _ ↔ _
    cases hv : decode n.2 d with
    | none =>
      refine ⟨nofun, ?_⟩
      rintro ⟨es, -, hes⟩
      cases hes with
      | cons hd _ => simp [hv] at hd
    | some v =>
      rw [Option.map_some, Option.bind_some, ih (by simpa [hentries] using h)]
      constructor
      · rintro ⟨es, hm, hes⟩
        refine ⟨(n.1, v) :: es, ?_, .cons ⟨rfl, hv⟩ hes⟩
        rw [hm, hentries, List.append_assoc, List.singleton_append]
      · rintro ⟨es, hm, hes⟩
        cases hes with
        | @cons _ e _ es hd hes =>
          refine ⟨es, ?_, hes⟩
          have he : e = (n.1, v) := Prod.ext hd.1.symm (Option.some.inj (hd.2.symm.trans hv))
          rw [hm, hentries, he, List.append_assoc, List.singleton_append]

theorem map_fst_eq {V W : Type} {es : List (Bytes × V)} {ns : List (Bytes × W)}
    (h : List.Forall₂ (fun e n => e.1 = n.1) es ns) : es.map Prod.fst = ns.map Prod.fst := by
  rw [← List.forall₂_eq_eq_eq, List.forall₂_map_left_iff, List.forall₂_map_right_iff]
  exact h

section

variable {V : Type} {enc : V → Value} {es es' es₂ : List (Bytes × V)}

/-- The members of a written map, in another order and with reordered values. -/
theorem reordered_members {w : Value} (h : Reordered (.object (es.map fun e => (e.1, enc e.2))) w) :
    ∃ es₂ ns, w = .object ns ∧ es.Perm es₂ ∧
      List.Forall₂ (fun e n => e.1 = n.1 ∧ Reordered (enc e.2) n.2) es₂ ns := by
  cases h with
  | refl =>
    refine ⟨es, _, rfl, .refl es, List.forall₂_map_right_iff.mpr (List.forall₂_same.mpr ?_)⟩
    exact fun e _ => ⟨rfl, .refl _⟩
  | @object _ ms ns hperm hk hvs =>
    have hms : Relation.Comp (List.Forall₂ fun e m => m = (e.1, enc e.2)) List.Perm es ms :=
      ⟨_, List.forall₂_map_right_iff.mpr (List.forall₂_same.mpr fun _ _ => rfl), hperm⟩
    rw [List.forall₂_comp_perm_eq_perm_comp_forall₂] at hms
    obtain ⟨es₂, hes, hms⟩ := hms
    refine ⟨es₂, ns, rfl, hes, ?_⟩
    have hns := forall₂_pairs hk hvs
    have heq : ms = es₂.map fun e => (e.1, enc e.2) := by
      rw [← List.forall₂_eq_eq_eq, List.forall₂_map_right_iff]
      exact hms.flip
    rw [heq, List.forall₂_map_left_iff] at hns
    exact hns

theorem reordered_of_members (hperm : es.Perm es₂)
    (h : List.Forall₂ (fun e e' => e.1 = e'.1 ∧ Reordered (enc e.2) (enc e'.2)) es₂ es') :
    Reordered (.object (es.map fun e => (e.1, enc e.2))) (.object (es'.map fun e => (e.1, enc e.2))) := by
  refine .object (hperm.map _) ?_ ?_
  · rw [List.map_map, List.map_map]
    exact map_fst_eq (h.imp fun _ _ h => h.1)
  · rw [List.map_map, List.map_map, List.forall₂_map_left_iff, List.forall₂_map_right_iff]
    exact h.imp fun _ _ h => h.2

/-- In maps with the same keys in the same order, equal keys stand at the same place. -/
theorem rel_of_key_eq {R : Bytes × V → Bytes × V → Prop} (hnodup : (es.map Prod.fst).Nodup)
    (h : List.Forall₂ (fun e e' => e.1 = e'.1 ∧ R e e') es es') {e e' : Bytes × V} (he : e ∈ es)
    (he' : e' ∈ es') (hkey : e.1 = e'.1) : R e e' := by
  induction h with
  | nil => simp at he
  | @cons a b l l' hab hl ih =>
    rw [List.map_cons, List.nodup_cons] at hnodup
    have hkeys : l.map Prod.fst = l'.map Prod.fst := map_fst_eq (hl.imp fun _ _ h => h.1)
    rcases List.mem_cons.mp he with rfl | he <;> rcases List.mem_cons.mp he' with rfl | he'
    · exact hab.2
    · exact absurd (hkeys ▸ hkey ▸ List.mem_map_of_mem he') hnodup.1
    · exact absurd (hab.1 ▸ hkey ▸ List.mem_map_of_mem he) hnodup.1
    · exact ih hnodup.2 he he'

end

theorem Ty.toJson_strMap (t : Ty) (m : StrMap Bytes t.Val) :
    (Ty.strMap .string t).toJson m = .object (m.entries.map fun e => (e.1, t.toJson e.2)) := by
  show Value.object (objectOfEntries .string (m.entries.map fun e => (e.1, t.toJson e.2))) = _
  rw [objectOfEntries_eq]
  rw [List.map_map]
  exact m.nodup

theorem Ty.fromJson_strMap (t : Ty) (ns : List (Bytes × Value)) (m : StrMap Bytes t.Val)
    (h : (ns.map Prod.fst).Nodup) :
    (Ty.strMap .string t).fromJson (.object ns) (Ty.strMap .string t).default = some m ↔
      List.Forall₂ (fun n e => n.1 = e.1 ∧ t.fromJson n.2 t.default = some e.2) ns m.entries := by
  refine (foldlM_assign_iff t.fromJson t.default (m := {}) h).trans ?_
  constructor
  · rintro ⟨es, hm, hes⟩
    rwa [hm]
  · exact fun hes => ⟨m.entries, rfl, hes⟩

end Lsp
