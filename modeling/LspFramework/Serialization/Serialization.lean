import LspFramework.Serialization.Types

/-!
# Serialization

The overload sets of `serialization.h` as functions on `Ty`.

* `Ty.toJson`: the value a C++ value is written as.
* `Ty.canDeserializeTypeFromJson`, `Tys.deserializableVariantIndex`: the type test that selects the
  alternative of a variant.
* `Ty.fromJson json value`: the value afterwards of the reference `value` that is decoded into;
  `none` where `value()` is called on an error, which terminates the process.
-/

namespace Lsp

open Chars Lsp.Json

/-! ## toJson -/

/-- `toJson` of an integer; of a `long` below the range of `Integer` the low 32 bits are kept. -/
def Integral.toJson (a : Integral) (i : a.Carrier) : Value :=
  if i.val ≤ Int32.maxValue.toInt then .integer (Int32.ofInt i.val) else .decimal (Binary64.ofInt i.val)

def Underlying.toJson : (u : Underlying) → u.Carrier → Value
  | .boolean, b => .boolean b
  | .integral a, i => a.toJson i
  | .string, s => .string s

/-- The object after `result[mapKey(k)] = toJson(v)` for each entry. -/
def objectOfEntries (k : MapKey) (es : List (k.Carrier × Value)) : Object :=
  es.foldl (fun result e => Object.assign (k.mapKey e.1) e.2 result) []

mutual

def Ty.toJson : (t : Ty) → t.Val → Value
  | .null, _ => .null
  | .bool, b => .boolean b
  | .integral a, i => a.toJson i
  | .floating _, d => .decimal d
  | .string, s => .string s
  | .uri, uri => .string uri.toString
  | .enumeration u _, e => u.toJson e.value
  | .nullable _, none => .null
  | .nullable t, some v => t.toJson v
  | .nullableVariant _, none => .null
  | .nullableVariant ts, some v => ts.anyToJson v
  | .vector t, vs => .array (vs.map t.toJson)
  | .tuple ts, v => .array (ts.allToJson v)
  | .strMap k t, m => .object (objectOfEntries k (m.entries.map fun e => (e.1, t.toJson e.2)))
  | .variant ts, v => ts.anyToJson v
  | .structure ms, v => .object (ms.membersToJson v [])

def Tys.allToJson : (ts : Tys) → ts.All → List Value
  | .last t, v => [t.toJson v]
  | .more t ts, v => t.toJson v.1 :: ts.allToJson v.2

/-- `std::visit` with `toJson`. -/
def Tys.anyToJson : (ts : Tys) → ts.Any → Value
  | .last t, v => t.toJson v
  | .more t _, .inl v => t.toJson v
  | .more _ ts, .inr v => ts.anyToJson v

/-- The object after the members are written to it; an empty optional is left out. -/
def Members.membersToJson : (ms : Members) → ms.Val → Object → Object
  | .none, _, json => json
  | .required key t ms, v, json => ms.membersToJson v.2 (Object.assign key (t.toJson v.1) json)
  | .optional key t ms, (some v, vs), json => ms.membersToJson vs (Object.assign key (t.toJson v) json)
  | .optional _ _ ms, (none, vs), json => ms.membersToJson vs json

end

/-! ## canDeserializeTypeFromJson -/

/-- The loop over `literalProperties`: a member that is present has the value of the table. -/
def hasLiteralProperties (literalProperties : List (Bytes × Value)) (json : Object) : Bool :=
  literalProperties.all fun p =>
    match Object.find p.1 json with
    | some v => v.eq p.2
    | none => true

/-- The loop over `requiredProperties`. -/
def hasRequiredProperties (requiredProperties : List Bytes) (json : Object) : Bool :=
  requiredProperties.all fun key => Object.contains key json

/-- The last branch of `canDeserializeTypeFromJson`, for every type that no other branch is for. -/
def canDeserializeObject (literalProperties : List (Bytes × Value)) (requiredProperties : List Bytes)
    (json : Value) : Bool :=
  match json with
  | .object obj => hasLiteralProperties literalProperties obj && hasRequiredProperties requiredProperties obj
  | _ => false

def Members.requiredProperties : Members → List Bytes
  | .none => []
  | .required key _ ms => key :: ms.requiredProperties
  | .optional _ _ ms => ms.requiredProperties

def Tys.tupleSize : Tys → Nat
  | .last _ => 1
  | .more _ ts => ts.tupleSize + 1

/-- An `Enumeration` over `bool` passes on a number, as `bool` is an integral type. -/
def Underlying.canDeserialize : Underlying → Value → Bool
  | .boolean, json => json.isNumber
  | .integral _, json => json.isNumber
  | .string, json => json.isString

mutual

def Ty.canDeserializeTypeFromJson : Ty → Value → Bool
  | .null, json => json.isNull
  | .bool, json => json.isBoolean
  | .integral _, json => json.isNumber
  | .floating _, json => json.isNumber
  | .string, json => json.isString
  | .uri, json => canDeserializeObject [] [] json
  | .enumeration u _, json => u.canDeserialize json
  | .nullable t, json => json.isNull || t.canDeserializeTypeFromJson json
  | .nullableVariant ts, json => json.isNull || (ts.deserializableVariantIndex json).isSome
  | .vector t, .array (v :: _) => t.canDeserializeTypeFromJson v
  | .vector _, json => json.isArray
  | .tuple ts, .array array => array.length = ts.tupleSize && ts.canDeserializeTupleFromJson array
  | .tuple _, _ => false
  | .strMap _ _, json => canDeserializeObject [] [] json
  | .variant ts, json => (ts.deserializableVariantIndex json).isSome
  | .structure ms, json => canDeserializeObject [] ms.requiredProperties json

/-- `canDeserializeTupleFromJson` behind the test of the size. -/
def Tys.canDeserializeTupleFromJson : Tys → List Value → Bool
  | .last t, v :: _ => t.canDeserializeTypeFromJson v
  | .more t ts, v :: vs => t.canDeserializeTypeFromJson v || ts.canDeserializeTupleFromJson vs
  | .last _, [] => false
  | .more _ _, [] => false

/-- The first alternative that passes; `none` for `std::variant_npos`. -/
def Tys.deserializableVariantIndex : Tys → Value → Option Nat
  | .last t, json => if t.canDeserializeTypeFromJson json then some 0 else none
  | .more t ts, json =>
    if t.canDeserializeTypeFromJson json then some 0 else (ts.deserializableVariantIndex json).map (· + 1)

end

/-! ## fromJson -/

def Underlying.fromJson : (u : Underlying) → Value → Option u.Carrier
  | .boolean, json => json.boolean?
  | .integral a, json => json.number?.map a.ofNumber
  | .string, json => json.string?

/-- `fromJson` of a variant, given the alternative that passes: without one it is left as it is. -/
def variantFromJson {V : Type} (idx : Option Nat) (alternativeFromJson : Nat → V → Option V)
    (variant : V) : Option V :=
  match idx with
  | some idx => alternativeFromJson idx variant
  | none => some variant

mutual

def Ty.fromJson : (t : Ty) → Value → t.Val → Option t.Val
  | .null, _, value => some value
  | .bool, json, _ => json.boolean?
  | .integral a, json, _ => json.number?.map a.ofNumber
  | .floating f, json, _ => json.number?.map f.ofNumber
  | .string, json, _ => json.string?
  | .uri, json, _ => json.string?.map Uri.parse
  | .enumeration u _, json, e => (u.fromJson json).map e.assign
  | .nullable t, json, nullable =>
    if json.isNull then some none else (t.fromJson json (nullable.getD t.default)).map some
  | .nullableVariant ts, json, nullable =>
    if json.isNull then some none
    else
      (variantFromJson (ts.deserializableVariantIndex json)
        (fun idx variant => ts.alternativeFromJson json (some variant) idx) (nullable.getD ts.anyDefault)).map some
  | .vector t, json, value =>
    json.array?.bind fun array =>
      (array.mapM fun v => t.fromJson v t.default).map (List.append value)
  | .tuple ts, json, value =>
    json.array?.bind fun array =>
      if array.length = ts.tupleSize then ts.elementsFromJson array value else some value
  | .strMap k t, json, value =>
    json.object?.bind fun obj =>
      obj.foldlM (fun value m =>
        match k.ofMember m.1 with
        | some key => (t.fromJson m.2 ((value.find key).getD t.default)).map (value.assign key)
        | none => some value) value
  | .variant ts, json, variant =>
    variantFromJson (ts.deserializableVariantIndex json)
      (fun idx variant => ts.alternativeFromJson json (some variant) idx) variant
  | .structure ms, json, value => json.object?.bind fun obj => ms.membersFromJson obj value

/-- The elements of an array of the right length, one after the other. -/
def Tys.elementsFromJson : (ts : Tys) → List Value → ts.All → Option ts.All
  | .last t, v :: _, value => t.fromJson v value
  | .more t ts, v :: vs, value =>
    (t.fromJson v value.1).bind fun x => (ts.elementsFromJson vs value.2).map fun xs => (x, xs)
  | .last _, [], value => some value
  | .more _ _, [], value => some value

/-- `impl::variantFromJson` from some alternative on: `variant` is the value held if it is one of
these, and `idx` counts from there.  The alternative of the index is decoded into, which is a default
value unless it is held already. -/
def Tys.alternativeFromJson : (ts : Tys) → Value → Option ts.Any → Nat → Option ts.Any
  | .last t, json, variant, _ => t.fromJson json (variant.getD t.default)
  | .more t _, json, some (.inl v), 0 => (t.fromJson json v).map .inl
  | .more t _, json, _, 0 => (t.fromJson json t.default).map .inl
  | .more _ ts, json, some (.inr v), idx + 1 => (ts.alternativeFromJson json (some v) idx).map .inr
  | .more _ ts, json, _, idx + 1 => (ts.alternativeFromJson json none idx).map .inr

/-- `FromJson` of a structure without literal properties.  `null` stands for an empty optional
unless its type takes it. -/
def Members.membersFromJson : (ms : Members) → Object → ms.Val → Option ms.Val
  | .none, _, value => some value
  | .required key t ms, json, value =>
    (Object.find key json).bind fun v =>
      (t.fromJson v value.1).bind fun x => (ms.membersFromJson json value.2).map fun xs => (x, xs)
  | .optional key t ms, json, value =>
    match Object.find key json with
    | none => (ms.membersFromJson json value.2).map fun xs => (value.1, xs)
    | some v =>
      if v.isNull && !t.canDeserializeTypeFromJson v then
        (ms.membersFromJson json value.2).map fun xs => (none, xs)
      else
        (t.fromJson v (value.1.getD t.default)).bind fun x =>
          (ms.membersFromJson json value.2).map fun xs => (some x, xs)

end

end Lsp
