import LspFramework.Json.Value
import LspFramework.Uri.Uri

/-!
# Serializable types

`Ty` is a C++ type that `toJson`, `fromJson` and `canDeserializeTypeFromJson` have overloads for,
and `Ty.Val` its values.  The alternatives of a variant and the elements of a tuple are a `Tys`,
which is not empty.

* `Integral`, `Floating`, `Underlying`: the arithmetic types and the value types of an enumeration.
* `Enumeration`, `StrMap`: the class templates of `enumeration.h` and `strmap.h`.
* `Ty.default`: what `T{}` gives.
-/

namespace Lsp

open Chars Lsp.Json

/-! ## Arithmetic types -/

/-- The integer types `fromJson` is overloaded for; `long` has 64 bits. -/
inductive Integral where
  | int
  | unsignedInt
  | long
  | unsignedLong
  | unsignedLongLong
  deriving DecidableEq, Repr

namespace Integral

/-- `std::numeric_limits<T>::min()`. -/
def min : Integral → Int
  | .int => -2 ^ 31
  | .long => -2 ^ 63
  | .unsignedInt | .unsignedLong | .unsignedLongLong => 0

/-- `std::numeric_limits<T>::max()`. -/
def max : Integral → Int
  | .int => 2 ^ 31 - 1
  | .unsignedInt => 2 ^ 32 - 1
  | .long => 2 ^ 63 - 1
  | .unsignedLong | .unsignedLongLong => 2 ^ 64 - 1

abbrev Carrier (a : Integral) : Type := { i : Int // a.min ≤ i ∧ i ≤ a.max }

def zero (a : Integral) : a.Carrier := ⟨0, by cases a <;> decide⟩

/-- `static_cast<T>` of a `double`. -/
def ofNumber (a : Integral) (d : Decimal) : a.Carrier :=
  ⟨d.toInteger a.min a.max, by
    have h : a.min ≤ a.max := by cases a <;> decide
    rw [Binary64.toInteger]
    split
    · split
      · assumption
      · exact ⟨Int.le_refl _, h⟩
    · exact ⟨Int.le_refl _, h⟩⟩

end Integral

/-- A `float` is kept as the `double` of the same value. -/
inductive Floating where
  | single
  | double
  deriving DecidableEq, Repr

/-- `static_cast<T>` of a `double`. -/
def Floating.ofNumber : Floating → Decimal → Decimal
  | .single, d => d.toSingle
  | .double, d => d

/-! ## Enumerations -/

/-- The value type of an enumeration: integral, which `bool` is too, or a string. -/
inductive Underlying where
  | boolean
  | integral (a : Integral)
  | string
  deriving DecidableEq, Repr

namespace Underlying

abbrev Carrier : Underlying → Type
  | .boolean => Bool
  | .integral a => a.Carrier
  | .string => Bytes

def default : (u : Underlying) → u.Carrier
  | .boolean => false
  | .integral a => a.zero
  | .string => []

instance : (u : Underlying) → DecidableEq u.Carrier
  | .boolean => inferInstanceAs (DecidableEq Bool)
  | .integral a => inferInstanceAs (DecidableEq a.Carrier)
  | .string => inferInstanceAs (DecidableEq Bytes)

end Underlying

/-- `Enumeration` over the constants `s_values`; the index behind them is `MAX_VALUE`. -/
structure Enumeration (u : Underlying) (values : List u.Carrier) where
  index : Fin (values.length + 1) := Fin.last _
  customValue : u.Carrier := u.default

namespace Enumeration

variable {u : Underlying} {values : List u.Carrier}

def hasCustomValue (e : Enumeration u values) : Bool := e.index = Fin.last _

def value (e : Enumeration u values) : u.Carrier :=
  if h : e.hasCustomValue then e.customValue
  else values.get ⟨e.index, by
    have := e.index.isLt
    have : e.index.val ≠ values.length := by
      intro heq
      exact h (decide_eq_true (Fin.ext heq))
    omega⟩

/-- `operator=(ValueType&&)`: the first equal constant, or else a custom value. -/
def assign (e : Enumeration u values) (other : u.Carrier) : Enumeration u values :=
  match values.findFinIdx? (· == other) with
  | some i => { e with index := i.castSucc }
  | none => { index := Fin.last _, customValue := other }

theorem value_assign (e : Enumeration u values) (other : u.Carrier) : (e.assign other).value = other := by
  rw [assign]
  split
  · next i hi =>
    have hne : (i.castSucc : Fin (values.length + 1)) ≠ Fin.last _ := Fin.ne_of_lt (Fin.castSucc_lt_last i)
    have heq := (List.findFinIdx?_eq_some_iff.mp hi).1
    simpa [value, hasCustomValue, hne] using heq
  · simp [value, hasCustomValue]

end Enumeration

/-! ## Maps -/

/-- The keys of a `StrMap`; a map with `FileUri` keys is not modelled. -/
inductive MapKey where
  | string
  | uri
  deriving DecidableEq, Repr

namespace MapKey

abbrev Carrier : MapKey → Type
  | .string => Bytes
  | .uri => Uri

instance : (k : MapKey) → DecidableEq k.Carrier
  | .string => inferInstanceAs (DecidableEq Bytes)
  | .uri => inferInstanceAs (DecidableEq Uri)

/-- `impl::mapKey`. -/
def mapKey : (k : MapKey) → k.Carrier → Bytes
  | .string, s => s
  | .uri, u => u.toString

/-- The key a member is decoded under; a member whose name is no valid URI is skipped. -/
def ofMember : (k : MapKey) → Bytes → Option k.Carrier
  | .string, s => some s
  | .uri, s => if (Uri.parse s).isValid then some (Uri.parse s) else none

end MapKey

/-- An unordered map, as its entries in the order it is iterated in. -/
@[ext]
structure StrMap (K V : Type) where
  entries : List (K × V) := []
  nodup : (entries.map Prod.fst).Nodup := by simp

namespace StrMap

variable {K V : Type} [DecidableEq K]

def find (m : StrMap K V) (key : K) : Option V := (m.entries.find? fun e => e.1 = key).map Prod.snd

/-- The entries after `(*this)[key] = v`. -/
def assignEntries (key : K) (v : V) : List (K × V) → List (K × V)
  | [] => [(key, v)]
  | (k, w) :: es => if k = key then (k, v) :: es else (k, w) :: assignEntries key v es

theorem mem_keys_assignEntries {key k : K} {v : V} {es : List (K × V)}
    (h : k ∈ (assignEntries key v es).map Prod.fst) : k = key ∨ k ∈ es.map Prod.fst := by
  induction es with
  | nil => simpa [assignEntries] using h
  | cons e es ih =>
    rw [assignEntries] at h
    split at h
    · exact .inr h
    · simp only [List.map_cons, List.mem_cons] at h ⊢
      rcases h with h | h
      · exact .inr (.inl h)
      · rcases ih h with h | h
        · exact .inl h
        · exact .inr (.inr h)

theorem nodup_assignEntries (key : K) (v : V) {es : List (K × V)} (h : (es.map Prod.fst).Nodup) :
    ((assignEntries key v es).map Prod.fst).Nodup := by
  induction es with
  | nil => simp [assignEntries]
  | cons e es ih =>
    rw [List.map_cons, List.nodup_cons] at h
    rw [assignEntries]
    split
    · exact List.nodup_cons.mpr h
    · next hne =>
      refine List.nodup_cons.mpr ⟨?_, ih h.2⟩
      intro hmem
      rcases mem_keys_assignEntries hmem with heq | hmem
      · exact hne heq
      · exact h.1 hmem

def assign (m : StrMap K V) (key : K) (v : V) : StrMap K V :=
  ⟨assignEntries key v m.entries, nodup_assignEntries key v m.nodup⟩

theorem find_of_notMem {m : StrMap K V} {key : K} (h : key ∉ m.entries.map Prod.fst) : m.find key = none := by
  rw [find, Option.map_eq_none_iff, List.find?_eq_none]
  intro e he heq
  exact h (List.mem_map.mpr ⟨e, he, of_decide_eq_true heq⟩)

theorem assignEntries_of_notMem {key : K} {es : List (K × V)} (h : key ∉ es.map Prod.fst) (v : V) :
    assignEntries key v es = es ++ [(key, v)] := by
  induction es with
  | nil => rfl
  | cons e es ih =>
    rw [List.map_cons, List.mem_cons, not_or] at h
    rw [assignEntries, if_neg (Ne.symm h.1), ih h.2]
    rfl

end StrMap

/-! ## Types -/

mutual

inductive Ty where
  | null
  | bool
  | integral (a : Integral)
  | floating (f : Floating)
  | string
  | uri
  | enumeration (u : Underlying) (values : List u.Carrier)
  | nullable (t : Ty)
  | nullableVariant (ts : Tys)
  | vector (t : Ty)
  | tuple (ts : Tys)
  | strMap (k : MapKey) (t : Ty)
  | variant (ts : Tys)
  | structure (ms : Members)

/-- The alternatives of a variant, the elements of a tuple. -/
inductive Tys where
  | last (t : Ty)
  | more (t : Ty) (ts : Tys)

/-- The members of a structure, inherited ones first; an optional one is a `std::optional` or a
`std::unique_ptr`.  Members of a literal type are not modelled here. -/
inductive Members where
  | none
  | required (key : Bytes) (t : Ty) (ms : Members)
  | optional (key : Bytes) (t : Ty) (ms : Members)

end

mutual

def Ty.Val : Ty → Type
  | .null => Unit
  | .bool => Bool
  | .integral a => a.Carrier
  | .floating _ => Decimal
  | .string => Bytes
  | .uri => Uri
  | .enumeration u values => Enumeration u values
  | .nullable t => Option t.Val
  | .nullableVariant ts => Option ts.Any
  | .vector t => List t.Val
  | .tuple ts => ts.All
  | .strMap k t => StrMap k.Carrier t.Val
  | .variant ts => ts.Any
  | .structure ms => ms.Val

/-- A value of each type: `std::tuple`. -/
def Tys.All : Tys → Type
  | .last t => t.Val
  | .more t ts => t.Val × ts.All

/-- A value of one of the types: `std::variant`. -/
def Tys.Any : Tys → Type
  | .last t => t.Val
  | .more t ts => t.Val ⊕ ts.Any

def Members.Val : Members → Type
  | .none => Unit
  | .required _ t ms => t.Val × ms.Val
  | .optional _ t ms => Option t.Val × ms.Val

end

mutual

/-- `T{}`. -/
def Ty.default : (t : Ty) → t.Val
  | .null => ()
  | .bool => false
  | .integral a => a.zero
  | .floating _ => Binary64.zero false
  | .string => []
  | .uri => {}
  | .enumeration _ _ => {}
  | .nullable _ => Option.none
  | .nullableVariant _ => Option.none
  | .vector _ => []
  | .tuple ts => ts.allDefault
  | .strMap _ _ => {}
  | .variant ts => ts.anyDefault
  | .structure ms => ms.default

def Tys.allDefault : (ts : Tys) → ts.All
  | .last t => t.default
  | .more t ts => (t.default, ts.allDefault)

/-- The default of the first alternative. -/
def Tys.anyDefault : (ts : Tys) → ts.Any
  | .last t => t.default
  | .more t _ => .inl t.default

def Members.default : (ms : Members) → ms.Val
  | .none => ()
  | .required _ t ms => (t.default, ms.default)
  | .optional _ _ ms => (Option.none, ms.default)

end

end Lsp
