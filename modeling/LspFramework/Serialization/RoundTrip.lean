import LspFramework.Serialization.Written

/-!
# Decoding what was encoded

A value of a type without floating-point members and structures is written by `toJson` and decoded
into a default value.  The members of an object may come back in another order, since a map is
unordered: `Reordered`.

* `Ty.RoundTrips`: the decoded value is written the same way and holds the same alternatives.
* `Ty.Admissible`: the URIs in the value parse from their texts, and no alternative before the held
  one passes the type test.
* `Ty.Recoverable`: the held alternative itself passes the test, `null` is written for no value that
  holds an alternative, and every integer is written as a number its type has.

Main result: `Ty.roundTrips_iff` (a value round-trips exactly when it is recoverable).
-/

namespace Lsp

open Chars Fallible Lsp.Json Lsp.Json.Value

/-! ## The types -/

mutual

/-- Types built without `float`, `double`, structures and maps with other keys than strings. -/
def Ty.Listed : Ty → Prop
  | .floating _ => False
  | .structure _ => False
  | .nullable t => t.Listed
  | .nullableVariant ts => ts.Listed
  | .vector t => t.Listed
  | .tuple ts => ts.Listed
  | .strMap k t => k = .string ∧ t.Listed
  | .variant ts => ts.Listed
  | _ => True

def Tys.Listed : Tys → Prop
  | .last t => t.Listed
  | .more t ts => t.Listed ∧ ts.Listed

end

/-! ## The values -/

mutual

def Ty.Admissible : (t : Ty) → t.Val → Prop
  | .uri, uri => Uri.parse uri.toString = uri
  | .nullable t, some v => t.Admissible v
  | .nullableVariant ts, some v => ts.AnyAdmissible v
  | .vector t, vs => List.Forall t.Admissible vs
  | .tuple ts, v => ts.AllAdmissible v
  | .strMap k t, m => ∀ e ∈ (m : StrMap k.Carrier t.Val).entries, t.Admissible e.2
  | .variant ts, v => ts.AnyAdmissible v
  | _, _ => True

def Tys.AllAdmissible : (ts : Tys) → ts.All → Prop
  | .last t, v => t.Admissible v
  | .more t ts, v => t.Admissible v.1 ∧ ts.AllAdmissible v.2

/-- No alternative before the held one passes the type test on what is written. -/
def Tys.AnyAdmissible : (ts : Tys) → ts.Any → Prop
  | .last t, v => t.Admissible v
  | .more t _, .inl v => t.Admissible v
  | .more t ts, .inr v => t.canDeserializeTypeFromJson (ts.anyToJson v) = false ∧ ts.AnyAdmissible v

end

/-! ## Alternatives -/

mutual

/-- No alternative is held anywhere in the value. -/
def Ty.VariantFree : (t : Ty) → t.Val → Prop
  | .nullable t, some v => t.VariantFree v
  | .nullableVariant _, some _ => False
  | .vector t, vs => List.Forall t.VariantFree vs
  | .tuple ts, v => ts.AllVariantFree v
  | .strMap k t, m => ∀ e ∈ (m : StrMap k.Carrier t.Val).entries, t.VariantFree e.2
  | .variant _, _ => False
  | .structure ms, v => ms.VariantFree v
  | _, _ => True

def Tys.AllVariantFree : (ts : Tys) → ts.All → Prop
  | .last t, v => t.VariantFree v
  | .more t ts, v => t.VariantFree v.1 ∧ ts.AllVariantFree v.2

def Members.VariantFree : (ms : Members) → ms.Val → Prop
  | .none, _ => True
  | .required _ t ms, v => t.VariantFree v.1 ∧ ms.VariantFree v.2
  | .optional _ t ms, (some v, vs) => t.VariantFree v ∧ ms.VariantFree vs
  | .optional _ _ ms, (none, vs) => ms.VariantFree vs

end

mutual

/-- Both values hold the same alternatives, at the same places; the entries of maps are compared by
key. -/
def Ty.SameAlternatives : (t : Ty) → t.Val → t.Val → Prop
  | .nullable t, some v, some w => t.SameAlternatives v w
  | .nullable t, some v, none => t.VariantFree v
  | .nullable t, none, some w => t.VariantFree w
  | .nullableVariant ts, some v, some w => ts.AnySameAlternative v w
  | .nullableVariant _, some _, none => False
  | .nullableVariant _, none, some _ => False
  | .vector t, vs, ws => List.Forall₂ t.SameAlternatives vs ws
  | .tuple ts, v, w => ts.AllSameAlternatives v w
  | .strMap k t, m, n =>
    ∀ e ∈ (m : StrMap k.Carrier t.Val).entries, ∀ e' ∈ (n : StrMap k.Carrier t.Val).entries,
      e.1 = e'.1 → t.SameAlternatives e.2 e'.2
  | .variant ts, v, w => ts.AnySameAlternative v w
  | .structure ms, v, w => ms.SameAlternatives v w
  | _, _, _ => True

def Tys.AllSameAlternatives : (ts : Tys) → ts.All → ts.All → Prop
  | .last t, v, w => t.SameAlternatives v w
  | .more t ts, v, w => t.SameAlternatives v.1 w.1 ∧ ts.AllSameAlternatives v.2 w.2

def Tys.AnySameAlternative : (ts : Tys) → ts.Any → ts.Any → Prop
  | .last t, v, w => t.SameAlternatives v w
  | .more t _, .inl v, .inl w => t.SameAlternatives v w
  | .more _ ts, .inr v, .inr w => ts.AnySameAlternative v w
  | .more _ _, .inl _, .inr _ => False
  | .more _ _, .inr _, .inl _ => False

def Members.SameAlternatives : (ms : Members) → ms.Val → ms.Val → Prop
  | .none, _, _ => True
  | .required _ t ms, v, w => t.SameAlternatives v.1 w.1 ∧ ms.SameAlternatives v.2 w.2
  | .optional _ t ms, (some v, vs), (some w, ws) => t.SameAlternatives v w ∧ ms.SameAlternatives vs ws
  | .optional _ t ms, (some v, vs), (none, ws) => t.VariantFree v ∧ ms.SameAlternatives vs ws
  | .optional _ t ms, (none, vs), (some w, ws) => t.VariantFree w ∧ ms.SameAlternatives vs ws
  | .optional _ _ ms, (none, vs), (none, ws) => ms.SameAlternatives vs ws

end

/-! ## The condition -/

/-- What is written for the value is what is written for the default value, which a variant that is
not decoded holds. -/
def Ty.LikeDefault (t : Ty) (v : t.Val) : Prop :=
  Reordered (t.toJson v) (t.toJson t.default) ∧ t.SameAlternatives v t.default

mutual

def Ty.Recoverable : (t : Ty) → t.Val → Prop
  | .integral a, i => a.Fits i
  | .enumeration u values, e => u.Fits (e : Enumeration u values).value
  | .nullable t, some v => if (t.toJson v).isNull then t.VariantFree v else t.Recoverable v
  | .nullableVariant ts, some v => (ts.anyToJson v).isNull = false ∧ ts.AnyRecoverable v
  | .vector t, vs => List.Forall t.Recoverable vs
  | .tuple ts, v => ts.AllRecoverable v
  | .strMap k t, m => ∀ e ∈ (m : StrMap k.Carrier t.Val).entries, t.Recoverable e.2
  | .variant ts, v => ts.AnyRecoverable v
  | _, _ => True

def Tys.AllRecoverable : (ts : Tys) → ts.All → Prop
  | .last t, v => t.Recoverable v
  | .more t ts, v => t.Recoverable v.1 ∧ ts.AllRecoverable v.2

/-- The held alternative passes the type test; or it is the first one, none passes, and the value is
as good as the default value. -/
def Tys.AnyRecoverable : (ts : Tys) → ts.Any → Prop
  | .last t, v =>
    if t.canDeserializeTypeFromJson (t.toJson v) then t.Recoverable v else t.LikeDefault v
  | .more t ts, .inl v =>
    if t.canDeserializeTypeFromJson (t.toJson v) then t.Recoverable v
    else ts.deserializableVariantIndex (t.toJson v) = none ∧ t.LikeDefault v
  | .more _ ts, .inr v => ts.LaterRecoverable v

/-- The same for the alternatives behind the first one. -/
def Tys.LaterRecoverable : (ts : Tys) → ts.Any → Prop
  | .last t, v => t.canDeserializeTypeFromJson (t.toJson v) = true ∧ t.Recoverable v
  | .more t _, .inl v => t.canDeserializeTypeFromJson (t.toJson v) = true ∧ t.Recoverable v
  | .more _ ts, .inr v => ts.LaterRecoverable v

end

/-- `json` is decoded to a value that is written like `v` and holds the same alternatives. -/
def Ty.DecodesLike (t : Ty) (v : t.Val) (json : Value) : Prop :=
  ∃ v', t.fromJson json t.default = some v' ∧ Reordered (t.toJson v) (t.toJson v') ∧
    t.SameAlternatives v v'

/-- What is written for `v` is decoded like this, whatever order its members come in. -/
def Ty.RoundTrips (t : Ty) (v : t.Val) : Prop :=
  ∀ json, Reordered (t.toJson v) json → t.DecodesLike v json

/-! ## Recoverable values round-trip -/

theorem Underlying.roundTrips {u : Underlying} {values : List u.Carrier} {e : Enumeration u values}
    (hfits : u.Fits e.value) : (Ty.enumeration u values).RoundTrips e := by
  intro json h
  obtain rfl := Underlying.reordered_toJson h
  obtain ⟨c, hdec, henc⟩ := u.decode e.value
  refine ⟨Enumeration.assign {} c, ?_, ?_, trivial⟩
  · show (u.fromJson (u.toJson e.value)).map _ = _
    rw [hdec]
    rfl
  · show Reordered (u.toJson e.value) (u.toJson (Enumeration.value (Enumeration.assign {} c)))
    rw [Enumeration.value_assign, henc.mpr hfits]
    exact .refl _

theorem Ty.nullable_roundTrips {t : Ty} {v : t.Val}
    (h : if (t.toJson v).isNull then t.VariantFree v else t.RoundTrips v) :
    (Ty.nullable t).RoundTrips (some v) := by
  intro json hjson
  have hnull := hjson.isNull_eq
  change (t.toJson v).isNull = json.isNull at hnull
  split at h
  · next hv =>
    refine ⟨none, ?_, ?_, h⟩
    · exact if_pos (hnull ▸ hv)
    · show Reordered (t.toJson v) .null
      cases hj : t.toJson v <;> rw [hj] at hv <;> cases hv
      exact .refl _
  · next hv =>
    obtain ⟨v', hdec, hre, hsame⟩ := h json hjson
    refine ⟨some v', ?_, hre, hsame⟩
    show (if json.isNull then some none else (t.fromJson json t.default).map some) = _
    rw [if_neg (hnull ▸ hv), hdec]
    rfl

theorem Ty.vector_roundTrips {t : Ty} {vs : List t.Val} (h : ∀ v ∈ vs, t.RoundTrips v) :
    (Ty.vector t).RoundTrips vs := by
  intro json hjson
  obtain ⟨ws, rfl, hws⟩ := reordered_array_iff.mp hjson
  obtain ⟨vs', hdec, hlike⟩ := forall₂_choose (List.forall₂_map_left_iff.mp hws) fun v hv w hw => h v hv w hw
  refine ⟨vs', ?_, ?_, hlike.imp fun _ _ h => h.2⟩
  · show (ws.mapM fun v => t.fromJson v t.default).map _ = _
    rw [mapM_eq_some_iff.mpr hdec]
    rfl
  · show Reordered (.array (vs.map t.toJson)) (.array (vs'.map t.toJson))
    refine .array (List.forall₂_map_left_iff.mpr (List.forall₂_map_right_iff.mpr ?_))
    exact hlike.imp fun _ _ h => h.1

theorem Ty.strMap_roundTrips {t : Ty} {m : StrMap Bytes t.Val} (h : ∀ e ∈ m.entries, t.RoundTrips e.2) :
    (Ty.strMap .string t).RoundTrips m := by
  intro json hjson
  rw [Ty.toJson_strMap] at hjson
  obtain ⟨es, ns, rfl, hperm, hns⟩ := reordered_members hjson
  have hkeys : (es.map Prod.fst).Nodup := (hperm.map Prod.fst).nodup_iff.mp m.nodup
  have hdecode : ∀ e ∈ es, ∀ n : Bytes × Value, e.1 = n.1 ∧ Reordered (t.toJson e.2) n.2 →
      ∃ e' : Bytes × t.Val, (n.1 = e'.1 ∧ t.fromJson n.2 t.default = some e'.2) ∧
        e.1 = e'.1 ∧ Reordered (t.toJson e.2) (t.toJson e'.2) ∧ t.SameAlternatives e.2 e'.2 := by
    rintro e he n ⟨hkey, hre⟩
    obtain ⟨v', hv', hlike⟩ := h e (hperm.mem_iff.mpr he) n.2 hre
    exact ⟨(e.1, v'), ⟨hkey.symm, hv'⟩, rfl, hlike⟩
  obtain ⟨es', hdec, hlike⟩ := forall₂_choose hns hdecode
  have hkeys' : es.map Prod.fst = es'.map Prod.fst := map_fst_eq (hlike.imp fun _ _ h => h.1)
  have hkeysn : es.map Prod.fst = ns.map Prod.fst := map_fst_eq (hns.imp fun _ _ h => h.1)
  refine ⟨⟨es', hkeys' ▸ hkeys⟩, (Ty.fromJson_strMap t ns _ (hkeysn ▸ hkeys)).mpr hdec, ?_, ?_⟩
  · rw [Ty.toJson_strMap, Ty.toJson_strMap]
    exact reordered_of_members hperm (hlike.imp fun _ _ h => ⟨h.1, h.2.1⟩)
  · intro e he e' he' hkey
    exact (rel_of_key_eq hkeys hlike (hperm.mem_iff.mp he) he' hkey).2

theorem Tys.length_allToJson : (ts : Tys) → (v : ts.All) → (ts.allToJson v).length = ts.tupleSize
  | .last _, _ => rfl
  | .more _ ts, v => congrArg (· + 1) (ts.length_allToJson v.2)

/-- Elements, decoded into default values, like `Ty.DecodesLike`. -/
def Tys.AllDecodeLike (ts : Tys) (v : ts.All) (array : List Value) : Prop :=
  ∃ v', ts.elementsFromJson array ts.allDefault = some v' ∧
    List.Forall₂ Reordered (ts.allToJson v) (ts.allToJson v') ∧ ts.AllSameAlternatives v v'

theorem Ty.tuple_roundTrips {ts : Tys} {v : ts.All}
    (h : ∀ ws, List.Forall₂ Reordered (ts.allToJson v) ws → ts.AllDecodeLike v ws) :
    (Ty.tuple ts).RoundTrips v := by
  intro json hjson
  obtain ⟨ws, rfl, hws⟩ := reordered_array_iff.mp hjson
  obtain ⟨v', hdec, hre, hsame⟩ := h ws hws
  have hlen : ws.length = ts.tupleSize := hws.length_eq.symm.trans (ts.length_allToJson v)
  exact ⟨v', (if_pos hlen).trans hdec, .array hre, hsame⟩

/-- The alternatives behind the first one: `json` is decoded to the alternative that `v` holds. -/
def Tys.LaterDecodesLike (ts : Tys) (v : ts.Any) (json : Value) : Prop :=
  ∃ idx v', ts.deserializableVariantIndex json = some idx ∧
    ts.alternativeFromJson json none idx = some v' ∧
    Reordered (ts.anyToJson v) (ts.anyToJson v') ∧ ts.AnySameAlternative v v'

/-- `json` is decoded to a default variant like this. -/
def Tys.AnyDecodesLike (ts : Tys) (v : ts.Any) (json : Value) : Prop :=
  ∃ v', variantFromJson (ts.deserializableVariantIndex json)
      (fun idx variant => ts.alternativeFromJson json (some variant) idx) ts.anyDefault = some v' ∧
    Reordered (ts.anyToJson v) (ts.anyToJson v') ∧ ts.AnySameAlternative v v'

theorem Tys.anyDecodesLike_of_some {ts : Tys} {v v' : ts.Any} {json : Value} {idx : Nat}
    (hidx : ts.deserializableVariantIndex json = some idx)
    (hdec : ts.alternativeFromJson json (some ts.anyDefault) idx = some v')
    (hlike : Reordered (ts.anyToJson v) (ts.anyToJson v') ∧ ts.AnySameAlternative v v') :
    ts.AnyDecodesLike v json := by
  refine ⟨v', ?_, hlike⟩
  rw [hidx]
  exact hdec

theorem Tys.anyDecodesLike_of_none {ts : Tys} {v : ts.Any} {json : Value}
    (hidx : ts.deserializableVariantIndex json = none)
    (hlike : Reordered (ts.anyToJson v) (ts.anyToJson ts.anyDefault) ∧
      ts.AnySameAlternative v ts.anyDefault) : ts.AnyDecodesLike v json := by
  refine ⟨ts.anyDefault, ?_, hlike⟩
  rw [hidx]
  rfl

theorem Tys.anyDecodesLike_cases {ts : Tys} {v : ts.Any} {json : Value} (h : ts.AnyDecodesLike v json) :
    (∃ idx v', ts.deserializableVariantIndex json = some idx ∧
      ts.alternativeFromJson json (some ts.anyDefault) idx = some v' ∧
      Reordered (ts.anyToJson v) (ts.anyToJson v') ∧ ts.AnySameAlternative v v') ∨
    (ts.deserializableVariantIndex json = none ∧ Reordered (ts.anyToJson v) (ts.anyToJson ts.anyDefault) ∧
      ts.AnySameAlternative v ts.anyDefault) := by
  obtain ⟨v', hdec, hlike⟩ := h
  cases hidx : ts.deserializableVariantIndex json with
  | none =>
    rw [hidx] at hdec
    obtain rfl : ts.anyDefault = v' := Option.some.inj hdec
    exact .inr ⟨rfl, hlike⟩
  | some idx =>
    rw [hidx] at hdec
    exact .inl ⟨idx, v', rfl, hdec, hlike⟩

/-- What the alternative before the held one does not pass on, it does not pass on in another order. -/
theorem Ty.fails_reordered {t : Ty} {v json : Value} (h : Reordered v json)
    (hfail : t.canDeserializeTypeFromJson v = false) : ¬ t.canDeserializeTypeFromJson json = true := by
  rw [← t.canDeserialize_reordered h]
  exact Bool.eq_false_iff.mp hfail

mutual

theorem Ty.roundTrips_of_recoverable : (t : Ty) → t.Listed → (v : t.Val) → t.Admissible v →
    t.Recoverable v → t.RoundTrips v
  | .null, _, v, _, _ => fun _ _ => ⟨v, rfl, .refl _, trivial⟩
  | .bool, _, b, _, _ => fun _ h => by
    cases h
    exact ⟨b, rfl, .refl _, trivial⟩
  | .string, _, s, _, _ => fun _ h => by
    cases h
    exact ⟨s, rfl, .refl _, trivial⟩
  | .uri, _, uri, hv, _ => fun _ h => by
    cases h
    exact ⟨uri, congrArg some hv, .refl _, trivial⟩
  | .integral a, _, i, _, hr => fun json h => by
    obtain rfl := Integral.reordered_toJson h
    obtain ⟨y, hdec, henc⟩ := a.decode i
    refine ⟨y, hdec, ?_, trivial⟩
    show Reordered (a.toJson i) (a.toJson y)
    rw [henc.mpr hr]
    exact .refl _
  | .enumeration _ _, _, _, _, hr => Underlying.roundTrips hr
  | .nullable _, _, none, _, _ => fun _ h => by
    cases h
    exact ⟨none, rfl, .refl _, trivial⟩
  | .nullable t, ht, some v, hv, hr => by
    refine Ty.nullable_roundTrips ?_
    rw [Ty.Recoverable] at hr
    split at hr
    · next hnull => rwa [if_pos hnull]
    · next hnull =>
      rw [if_neg hnull]
      exact t.roundTrips_of_recoverable ht v hv hr
  | .nullableVariant _, _, none, _, _ => fun _ h => by
    cases h
    exact ⟨none, rfl, .refl _, trivial⟩
  | .nullableVariant ts, hts, some v, hv, hr => fun json h => by
    obtain ⟨v', hdec, hlike⟩ := ts.any_of_recoverable hts v hv hr.2 json h
    have hnull : ¬ json.isNull = true := by
      rw [← Reordered.isNull_eq h]
      exact (hr.1 ▸ Bool.false_ne_true :)
    refine ⟨some v', ?_, hlike⟩
    exact (if_neg hnull).trans (congrArg (Option.map some) hdec)
  | .vector t, ht, vs, hv, hr =>
    Ty.vector_roundTrips fun v hmem => t.roundTrips_of_recoverable ht v
      (List.forall_iff_forall_mem.mp hv v hmem) (List.forall_iff_forall_mem.mp hr v hmem)
  | .tuple ts, hts, v, hv, hr => Ty.tuple_roundTrips fun ws => ts.all_of_recoverable hts v hv hr ws
  | .strMap _ t, ⟨rfl, ht⟩, m, hv, hr =>
    Ty.strMap_roundTrips fun e he => t.roundTrips_of_recoverable ht e.2 (hv e he) (hr e he)
  | .variant ts, hts, v, hv, hr => fun json h => ts.any_of_recoverable hts v hv hr json h

theorem Tys.all_of_recoverable : (ts : Tys) → ts.Listed → (v : ts.All) → ts.AllAdmissible v →
    ts.AllRecoverable v → (ws : List Value) → List.Forall₂ Reordered (ts.allToJson v) ws →
    ts.AllDecodeLike v ws
  | .last t, ht, v, hv, hr, _, .cons h .nil => by
    obtain ⟨v', hdec, hre, hsame⟩ := t.roundTrips_of_recoverable ht v hv hr _ h
    exact ⟨v', hdec, .cons hre .nil, hsame⟩
  | .more t ts, ht, v, hv, hr, _, .cons h hs => by
    obtain ⟨x, hx, hre, hsame⟩ := t.roundTrips_of_recoverable ht.1 v.1 hv.1 hr.1 _ h
    obtain ⟨xs, hxs, hres, hsames⟩ := ts.all_of_recoverable ht.2 v.2 hv.2 hr.2 _ hs
    refine ⟨(x, xs), ?_, .cons hre hres, hsame, hsames⟩
    rw [Tys.elementsFromJson]
    exact Option.bind_eq_some_iff.mpr ⟨x, hx, Option.map_eq_some_iff.mpr ⟨xs, hxs, rfl⟩⟩

theorem Tys.any_of_recoverable : (ts : Tys) → ts.Listed → (v : ts.Any) → ts.AnyAdmissible v →
    ts.AnyRecoverable v → (json : Value) → Reordered (ts.anyToJson v) json → ts.AnyDecodesLike v json
  | .last t, ht, v, hv, hr, json, h => by
    have hcan := t.canDeserialize_reordered h
    change t.canDeserializeTypeFromJson (t.toJson v) = _ at hcan
    rw [Tys.AnyRecoverable, hcan] at hr
    split at hr
    · next hpass =>
      obtain ⟨v', hdec, hlike⟩ := t.roundTrips_of_recoverable ht v hv hr json h
      exact Tys.anyDecodesLike_of_some (Tys.variantIndex_last hpass) hdec hlike
    · next hfail => exact Tys.anyDecodesLike_of_none (if_neg hfail) hr
  | .more t ts, ht, .inl v, hv, hr, json, h => by
    have hcan := t.canDeserialize_reordered h
    change t.canDeserializeTypeFromJson (t.toJson v) = _ at hcan
    rw [Tys.AnyRecoverable, hcan] at hr
    split at hr
    · next hpass =>
      obtain ⟨v', hdec, hlike⟩ := t.roundTrips_of_recoverable ht.1 v hv hr json h
      exact Tys.anyDecodesLike_of_some (Tys.variantIndex_first hpass) (congrArg (Option.map Sum.inl) hdec) hlike
    · next hfail =>
      have hnpos := (ts.variantIndex_reordered h).symm.trans hr.1
      have hidx := (Tys.variantIndex_later hfail).trans (congrArg (Option.map (· + 1)) hnpos)
      exact Tys.anyDecodesLike_of_none hidx hr.2
  | .more t ts, ht, .inr v, hv, hr, json, h => by
    have hfail := Ty.fails_reordered h hv.1
    obtain ⟨idx, v', hidx, hdec, hlike⟩ := ts.later_of_recoverable ht.2 v hv.2 hr json h
    exact Tys.anyDecodesLike_of_some ((Tys.variantIndex_later hfail).trans (congrArg (Option.map (· + 1)) hidx))
      (congrArg (Option.map Sum.inr) hdec) hlike

theorem Tys.later_of_recoverable : (ts : Tys) → ts.Listed → (v : ts.Any) → ts.AnyAdmissible v →
    ts.LaterRecoverable v → (json : Value) → Reordered (ts.anyToJson v) json →
    ts.LaterDecodesLike v json
  | .last t, ht, v, hv, hr, json, h => by
    have hpass := (t.canDeserialize_reordered h).symm.trans hr.1
    obtain ⟨v', hdec, hlike⟩ := t.roundTrips_of_recoverable ht v hv hr.2 json h
    exact ⟨0, v', Tys.variantIndex_last hpass, hdec, hlike⟩
  | .more t ts, ht, .inl v, hv, hr, json, h => by
    have hpass := (t.canDeserialize_reordered h).symm.trans hr.1
    obtain ⟨v', hdec, hlike⟩ := t.roundTrips_of_recoverable ht.1 v hv hr.2 json h
    exact ⟨0, Sum.inl v', Tys.variantIndex_first hpass, congrArg (Option.map Sum.inl) hdec, hlike⟩
  | .more t ts, ht, .inr v, hv, hr, json, h => by
    have hfail := Ty.fails_reordered h hv.1
    obtain ⟨idx, v', hidx, hdec, hlike⟩ := ts.later_of_recoverable ht.2 v hv.2 hr json h
    exact ⟨idx + 1, Sum.inr v', (Tys.variantIndex_later hfail).trans (congrArg (Option.map (· + 1)) hidx),
      congrArg (Option.map Sum.inr) hdec, hlike⟩

end

/-! ## Values that round-trip are recoverable -/

theorem Integral.fits_of_decodesLike {a : Integral} {i : a.Carrier}
    (h : (Ty.integral a).DecodesLike i (a.toJson i)) : a.Fits i := by
  obtain ⟨y, hy, hre, -⟩ := h
  obtain ⟨y', hy', henc⟩ := a.decode i
  obtain rfl : y' = y := Option.some.inj (hy'.symm.trans hy)
  exact henc.mp (Integral.reordered_toJson hre)

theorem Underlying.fits_of_decodesLike {u : Underlying} {values : List u.Carrier}
    {e : Enumeration u values} (h : (Ty.enumeration u values).DecodesLike e (u.toJson e.value)) :
    u.Fits e.value := by
  obtain ⟨e', he', hre, -⟩ := h
  obtain ⟨y, hy, henc⟩ := u.decode e.value
  have heq : Enumeration.assign {} y = e' := by
    have hdec : (u.fromJson (u.toJson e.value)).map (Enumeration.assign {}) = some e' := he'
    rw [hy] at hdec
    exact Option.some.inj hdec
  have hre' : u.toJson (Enumeration.value e') = u.toJson e.value := Underlying.reordered_toJson hre
  rw [← heq, Enumeration.value_assign] at hre'
  exact henc.mp hre'

theorem Ty.decodesLike_of_nullable {t : Ty} {v : t.Val}
    (h : (Ty.nullable t).DecodesLike (some v) (t.toJson v)) :
    if (t.toJson v).isNull then t.VariantFree v else t.DecodesLike v (t.toJson v) := by
  obtain ⟨v', hv', hre, hsame⟩ := h
  split
  · next hnull =>
    obtain rfl : none = v' := Option.some.inj ((if_pos hnull).symm.trans hv')
    exact hsame
  · next hnull =>
    obtain ⟨w, hw, rfl⟩ := Option.map_eq_some_iff.mp ((if_neg hnull).symm.trans hv')
    exact ⟨w, hw, hre, hsame⟩

theorem Ty.decodesLike_of_vector {t : Ty} {vs : List t.Val}
    (h : (Ty.vector t).DecodesLike vs (.array (vs.map t.toJson))) {v : t.Val} (hv : v ∈ vs) :
    t.DecodesLike v (t.toJson v) := by
  obtain ⟨vs', hdec, hre, hsame⟩ := h
  obtain ⟨elems, helems, rfl⟩ := Option.map_eq_some_iff.mp hdec
  have hdecs := List.forall₂_map_left_iff.mp (mapM_eq_some_iff.mp helems)
  obtain ⟨ws, hws, hres⟩ := reordered_array_iff.mp hre
  obtain rfl : elems.map t.toJson = ws := Value.array.inj hws
  have hres' := List.forall₂_map_left_iff.mp (List.forall₂_map_right_iff.mp hres)
  obtain ⟨v', -, ⟨hd, hr⟩, hs⟩ := exists_right_of_mem (forall₂_and (forall₂_and hdecs hres') hsame) hv
  exact ⟨v', hd, hr, hs⟩

theorem Ty.decodesLike_of_strMap {t : Ty} {m : StrMap Bytes t.Val}
    (h : (Ty.strMap .string t).DecodesLike m ((Ty.strMap .string t).toJson m)) {e : Bytes × t.Val}
    (he : e ∈ m.entries) : t.DecodesLike e.2 (t.toJson e.2) := by
  obtain ⟨m', hdec, hre, hsame⟩ := h
  change StrMap Bytes t.Val at m'
  rw [Ty.toJson_strMap] at hdec hre
  rw [Ty.toJson_strMap] at hre
  have hkeys : ((m.entries.map fun e => (e.1, t.toJson e.2)).map Prod.fst).Nodup := by
    rw [List.map_map]
    exact m.nodup
  have hkeys' : ((m'.entries.map fun e => (e.1, t.toJson e.2)).map Prod.fst).Nodup := by
    rw [List.map_map]
    exact m'.nodup
  have hdecs := List.forall₂_map_left_iff.mp ((Ty.fromJson_strMap t _ m' hkeys).mp hdec)
  obtain ⟨e', he', hkey, hd⟩ := exists_right_of_mem hdecs he
  have hfind := Object.find_of_mem hkeys (List.mem_map.mpr ⟨e, he, rfl⟩)
  obtain ⟨w, hw, hr⟩ := hre.find_some hkeys hfind
  have hfind' := Object.find_of_mem hkeys' (List.mem_map.mpr ⟨e', he', rfl⟩)
  obtain rfl : t.toJson e'.2 = w := by
    rw [← hkey] at hfind'
    exact Option.some.inj (hfind'.symm.trans hw)
  exact ⟨e'.2, hd, hr, hsame e he e' he' hkey⟩

theorem Tys.passes_of_last {t : Ty} {json : Value} {idx : Nat}
    (h : (Tys.last t).deserializableVariantIndex json = some idx) : t.canDeserializeTypeFromJson json = true := by
  by_contra hfail
  exact Option.some_ne_none _ (h.symm.trans (if_neg hfail))

/-- A decoded value holds the first alternative only if that one passes. -/
theorem Tys.first_of_sameAlternative {t : Ty} {ts : Tys} {json : Value} {idx : Nat}
    {variant : Option (Tys.more t ts).Any} (hvariant : variant.getD (.inl t.default) = .inl t.default)
    {v : t.Val} {v' : (Tys.more t ts).Any} (hidx : (Tys.more t ts).deserializableVariantIndex json = some idx)
    (hdec : (Tys.more t ts).alternativeFromJson json variant idx = some v')
    (hsame : (Tys.more t ts).AnySameAlternative (.inl v) v') :
    t.canDeserializeTypeFromJson json = true ∧ ∃ w, t.fromJson json t.default = some w ∧ .inl w = v' := by
  by_cases hpass : t.canDeserializeTypeFromJson json = true
  · obtain rfl : 0 = idx := Option.some.inj ((Tys.variantIndex_first hpass).symm.trans hidx)
    refine ⟨hpass, ?_⟩
    cases variant with
    | none => exact Option.map_eq_some_iff.mp hdec
    | some w =>
      obtain rfl : w = .inl t.default := hvariant
      exact Option.map_eq_some_iff.mp hdec
  · obtain ⟨i, -, rfl⟩ := Option.map_eq_some_iff.mp ((Tys.variantIndex_later hpass).symm.trans hidx)
    have hlater : ∃ w, Sum.inr w = v' := by
      cases variant with
      | none =>
        obtain ⟨w, -, hw⟩ := Option.map_eq_some_iff.mp hdec
        exact ⟨w, hw⟩
      | some w =>
        obtain rfl : w = .inl t.default := hvariant
        obtain ⟨w, -, hw⟩ := Option.map_eq_some_iff.mp hdec
        exact ⟨w, hw⟩
    obtain ⟨w, rfl⟩ := hlater
    exact hsame.elim

mutual

theorem Ty.recoverable_of_decodesLike : (t : Ty) → t.Listed → (v : t.Val) → t.Admissible v →
    t.DecodesLike v (t.toJson v) → t.Recoverable v
  | .null, _, _, _, _ => trivial
  | .bool, _, _, _, _ => trivial
  | .string, _, _, _, _ => trivial
  | .uri, _, _, _, _ => trivial
  | .integral _, _, _, _, h => Integral.fits_of_decodesLike h
  | .enumeration _ _, _, _, _, h => Underlying.fits_of_decodesLike h
  | .nullable _, _, none, _, _ => trivial
  | .nullable t, ht, some v, hv, h => by
    have h := Ty.decodesLike_of_nullable h
    rw [Ty.Recoverable]
    split
    · next hnull => rwa [if_pos hnull] at h
    · next hnull =>
      rw [if_neg hnull] at h
      exact t.recoverable_of_decodesLike ht v hv h
  | .nullableVariant _, _, none, _, _ => trivial
  | .nullableVariant ts, hts, some v, hv, h => by
    obtain ⟨v', hv', hre, hsame⟩ := h
    rw [Ty.Recoverable]
    cases hnull : (ts.anyToJson v).isNull with
    | true =>
      obtain rfl : none = v' := Option.some.inj ((if_pos hnull).symm.trans hv')
      exact hsame.elim
    | false =>
      obtain ⟨w, hw, rfl⟩ := Option.map_eq_some_iff.mp
        ((if_neg (Bool.eq_false_iff.mp hnull)).symm.trans hv')
      exact ⟨rfl, ts.any_of_decodesLike hts v hv ⟨w, hw, hre, hsame⟩⟩
  | .vector t, ht, vs, hv, h => List.forall_iff_forall_mem.mpr fun v hmem =>
    t.recoverable_of_decodesLike ht v (List.forall_iff_forall_mem.mp hv v hmem)
      (Ty.decodesLike_of_vector h hmem)
  | .tuple ts, hts, v, hv, h => by
    obtain ⟨v', hv', hre, hsame⟩ := h
    obtain ⟨ws, hws, hres⟩ := reordered_array_iff.mp hre
    obtain rfl : ts.allToJson v' = ws := Value.array.inj hws
    have hdec := (if_pos (ts.length_allToJson v)).symm.trans hv'
    exact ts.all_of_decodesLike hts v hv ⟨v', hdec, hres, hsame⟩
  | .strMap _ t, ⟨rfl, ht⟩, m, hv, h => fun e he =>
    t.recoverable_of_decodesLike ht e.2 (hv e he) (Ty.decodesLike_of_strMap h he)
  | .variant ts, hts, v, hv, h => ts.any_of_decodesLike hts v hv h

theorem Tys.all_of_decodesLike : (ts : Tys) → ts.Listed → (v : ts.All) → ts.AllAdmissible v →
    ts.AllDecodeLike v (ts.allToJson v) → ts.AllRecoverable v
  | .last t, ht, v, hv, h => by
    obtain ⟨v', hdec, hre, hsame⟩ := h
    exact t.recoverable_of_decodesLike ht v hv ⟨v', hdec, (List.forall₂_cons.mp hre).1, hsame⟩
  | .more t ts, ht, v, hv, h => by
    obtain ⟨v', hdec, hre, hsame⟩ := h
    obtain ⟨x, hx, hrest⟩ := Option.bind_eq_some_iff.mp hdec
    obtain ⟨xs, hxs, rfl⟩ := Option.map_eq_some_iff.mp hrest
    have hres := List.forall₂_cons.mp hre
    exact ⟨t.recoverable_of_decodesLike ht.1 v.1 hv.1 ⟨x, hx, hres.1, hsame.1⟩,
      ts.all_of_decodesLike ht.2 v.2 hv.2 ⟨xs, hxs, hres.2, hsame.2⟩⟩

theorem Tys.any_of_decodesLike : (ts : Tys) → ts.Listed → (v : ts.Any) → ts.AnyAdmissible v →
    ts.AnyDecodesLike v (ts.anyToJson v) → ts.AnyRecoverable v
  | .last t, ht, v, hv, h => by
    rw [Tys.AnyRecoverable]
    rcases Tys.anyDecodesLike_cases h with ⟨idx, v', hidx, hdec, hlike⟩ | ⟨hnpos, hlike⟩
    · exact (if_pos (Tys.passes_of_last hidx)).mpr (t.recoverable_of_decodesLike ht v hv ⟨v', hdec, hlike⟩)
    · split
      · next hpass => exact absurd ((Tys.variantIndex_last hpass).symm.trans hnpos) (Option.some_ne_none 0)
      · exact hlike
  | .more t ts, ht, .inl v, hv, h => by
    rw [Tys.AnyRecoverable]
    rcases Tys.anyDecodesLike_cases h with ⟨idx, v', hidx, hdec, hre, hsame⟩ | ⟨hnpos, hlike⟩
    · obtain ⟨hpass, w, hw, rfl⟩ := Tys.first_of_sameAlternative rfl hidx hdec hsame
      exact (if_pos hpass).mpr (t.recoverable_of_decodesLike ht.1 v hv ⟨w, hw, hre, hsame⟩)
    · split
      · next hpass => exact absurd ((Tys.variantIndex_first hpass).symm.trans hnpos) (Option.some_ne_none 0)
      · next hfail =>
        exact ⟨Option.map_eq_none_iff.mp ((Tys.variantIndex_later hfail).symm.trans hnpos), hlike⟩
  | .more t ts, ht, .inr v, hv, h => by
    rcases Tys.anyDecodesLike_cases h with ⟨idx, v', hidx, hdec, hre, hsame⟩ | ⟨-, -, hsame⟩
    · have hfail := Bool.eq_false_iff.mp hv.1
      obtain ⟨i, hi, rfl⟩ := Option.map_eq_some_iff.mp ((Tys.variantIndex_later hfail).symm.trans hidx)
      obtain ⟨w, hw, rfl⟩ := Option.map_eq_some_iff.mp hdec
      exact ts.later_of_decodesLike ht.2 v hv.2 ⟨i, w, hi, hw, hre, hsame⟩
    · exact hsame.elim

theorem Tys.later_of_decodesLike : (ts : Tys) → ts.Listed → (v : ts.Any) → ts.AnyAdmissible v →
    ts.LaterDecodesLike v (ts.anyToJson v) → ts.LaterRecoverable v
  | .last t, ht, v, hv, h => by
    obtain ⟨idx, v', hidx, hdec, hlike⟩ := h
    exact ⟨Tys.passes_of_last hidx, t.recoverable_of_decodesLike ht v hv ⟨v', hdec, hlike⟩⟩
  | .more t ts, ht, .inl v, hv, h => by
    obtain ⟨idx, v', hidx, hdec, hre, hsame⟩ := h
    obtain ⟨hpass, w, hw, rfl⟩ := Tys.first_of_sameAlternative rfl hidx hdec hsame
    exact ⟨hpass, t.recoverable_of_decodesLike ht.1 v hv ⟨w, hw, hre, hsame⟩⟩
  | .more t ts, ht, .inr v, hv, h => by
    obtain ⟨idx, v', hidx, hdec, hre, hsame⟩ := h
    have hfail := Bool.eq_false_iff.mp hv.1
    obtain ⟨i, hi, rfl⟩ := Option.map_eq_some_iff.mp ((Tys.variantIndex_later hfail).symm.trans hidx)
    obtain ⟨w, hw, rfl⟩ := Option.map_eq_some_iff.mp hdec
    exact ts.later_of_decodesLike ht.2 v hv.2 ⟨i, w, hi, hw, hre, hsame⟩

end

/-! ## Main result -/

/-- **When a value survives being written and decoded.**  For every type of the listed kinds and
every value of it whose URIs parse from their texts and in which no alternative before a held one
passes the type test: it comes back from every order of its members, written the same way and with
the same alternatives, exactly when it is `Recoverable`. -/
theorem Ty.roundTrips_iff (t : Ty) (ht : t.Listed) (v : t.Val) (hv : t.Admissible v) :
    t.RoundTrips v ↔ t.Recoverable v :=
  ⟨fun h => t.recoverable_of_decodesLike ht v hv (h _ (.refl _)),
    fun h => t.roundTrips_of_recoverable ht v hv h⟩

/-- A `std::variant<std::string, std::vector<Nullable<int>>>` that holds `{3, null}`. -/
theorem Ty.roundTrips_iff_vector :
    let t := Ty.variant (.more .string (.last (.vector (.nullable (.integral .int)))))
    let v : t.Val := Sum.inr [some ⟨3, by decide⟩, none]
    t.RoundTrips v := by
  intro t v
  refine (Ty.roundTrips_iff t ⟨trivial, trivial⟩ v ⟨rfl, trivial, trivial⟩).mpr ⟨rfl, ?_, trivial⟩
  exact .inl (by decide)

/-- A `std::variant<Uri, bool>` that holds a URI comes back with an empty one: a URI is written as a
string, and the type test takes only objects for one. -/
theorem Ty.not_roundTrips :
    let t := Ty.variant (.more .uri (.last .bool))
    let v : t.Val := Sum.inl (Uri.parse (bytes "a:b"))
    t.Listed ∧ t.Admissible v ∧ ¬ t.RoundTrips v := by
  refine ⟨⟨trivial, trivial⟩, ?_, ?_⟩
  · show Uri.parse (Uri.toString (Uri.parse (bytes "a:b"))) = Uri.parse (bytes "a:b")
    decide
  · intro h
    obtain ⟨v', hdec, hre, -⟩ := h _ (.refl _)
    obtain rfl : Sum.inl {} = v' := Option.some.inj hdec
    have heq : Value.string (bytes "a:b") = .string (bytes "") := by
      cases hre
    cases heq

end Lsp
