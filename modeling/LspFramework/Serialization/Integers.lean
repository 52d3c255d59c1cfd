import LspFramework.Serialization.Written

/-!
# Written integers

An integer is written as an `Integer` or a `Decimal`, after a test of the range that each overload of
`toJson` makes for itself.  The overload for `long` tests the upper bound only, the one for
`long long` both, so a `long` below the range of `Integer` loses its high bits.

    |x| ≤ 2^53 → (a.Preserved x ↔ (a = long → -2^31 ≤ x))                          (integral_preserved_iff)
    -2^31 ≤ x → the overloads for long and long long write the same       (toJson_long_eq_iff)
-/

namespace Lsp

open Lsp.Json

/-- The range of `Integer`. -/
def InInteger (i : Int) : Prop := Int32.minValue.toInt ≤ i ∧ i ≤ Int32.maxValue.toInt

instance (i : Int) : Decidable (InInteger i) := inferInstanceAs (Decidable (_ ∧ _))

theorem toInt_ofInt {i : Int} (h : InInteger i) : (Int32.ofInt i).toInt = i := by
  have hmin : Int32.minValue.toInt = -2 ^ 31 := rfl
  have hmax : Int32.maxValue.toInt = 2 ^ 31 - 1 := rfl
  obtain ⟨hlo, hup⟩ := h
  exact Int32.toInt_ofInt_of_le (by omega) (by omega)

namespace Integral

variable {a : Integral} {x : a.Carrier}

/-- `x` comes back, and is written as an `Integer` in the range of one and as an exact `Decimal`
outside it. -/
structure Preserved (a : Integral) (x : a.Carrier) : Prop where
  decoded : ∀ value, (Ty.integral a).fromJson ((Ty.integral a).toJson x) value = some x
  integer : InInteger x.val → ∃ i : Integer, (Ty.integral a).toJson x = .integer i ∧ i.toInt = x.val
  decimal : ¬ InInteger x.val →
    ∃ d : Decimal, (Ty.integral a).toJson x = .decimal d ∧ d.IsIntegral ∧ d.truncate = some x.val

/-- A number that stands for a value of the type is cast to it. -/
theorem ofNumber_of_truncate {d : Decimal} (h : d.truncate = some x.val) : a.ofNumber d = x := by
  apply Subtype.ext
  simp only [ofNumber, Binary64.toInteger, h, x.property, and_self, if_true]

theorem preserved_of_inInteger (h : InInteger x.val) : a.Preserved x := by
  have hmin : Int32.minValue.toInt = -2 ^ 31 := rfl
  have hmax : Int32.maxValue.toInt = 2 ^ 31 - 1 := rfl
  have hwritten : a.toJson x = .integer (Int32.ofInt x.val) := toJson_of_le h.2
  have htrunc : (Binary64.ofInt (Int32.ofInt x.val).toInt).truncate = some x.val := by
    rw [toInt_ofInt h]
    exact Binary64.truncate_ofInt (by obtain ⟨hlo, hup⟩ := h; omega)
  refine ⟨fun value => ?_, fun _ => ⟨_, hwritten, toInt_ofInt h⟩, fun hnot => absurd h hnot⟩
  show ((a.toJson x).number?).map a.ofNumber = some x
  rw [hwritten]
  exact congrArg some (ofNumber_of_truncate htrunc)

theorem preserved_of_gt (hx : x.val.natAbs ≤ 2 ^ 53) (h : ¬ x.val ≤ Int32.maxValue.toInt) : a.Preserved x := by
  have hwritten : a.toJson x = .decimal (Binary64.ofInt x.val) := toJson_of_gt h
  obtain ⟨hint, htrunc⟩ := Binary64.exact_ofInt hx
  refine ⟨fun value => ?_, fun hin => absurd hin.2 h, fun _ => ⟨_, hwritten, hint, htrunc⟩⟩
  show ((a.toJson x).number?).map a.ofNumber = some x
  rw [hwritten]
  exact congrArg some (ofNumber_of_truncate htrunc)

/-- Only `long` has values below the range. -/
theorem long_of_lt (h : x.val < Int32.minValue.toInt) : a = .long := by
  have hmin : Int32.minValue.toInt = -2 ^ 31 := rfl
  have hlo := x.property.1
  cases a <;> simp only [min] at hlo <;> first | rfl | omega

/-- Below the range the low bits are written as an `Integer`. -/
theorem not_preserved_of_lt (h : x.val < Int32.minValue.toInt) : ¬ a.Preserved x := by
  intro hp
  have hle : Int32.minValue.toInt ≤ Int32.maxValue.toInt := by decide
  have hwritten : a.toJson x = .integer (Int32.ofInt x.val) := toJson_of_le (by omega)
  obtain ⟨d, hd, -⟩ := hp.decimal (fun hin => absurd hin.1 (by omega))
  exact absurd (hwritten.symm.trans hd) nofun

/-- **Every integer of at most 53 bits comes back, unless it is a `long` below the range of `Integer`.** -/
theorem integral_preserved_iff (a : Integral) (x : a.Carrier) (hx : x.val.natAbs ≤ 2 ^ 53) :
    a.Preserved x ↔ (a = .long → Int32.minValue.toInt ≤ x.val) := by
  constructor
  · intro hp _
    by_contra hlt
    exact not_preserved_of_lt (Int.not_le.mp hlt) hp
  · intro hlong
    have hlo : Int32.minValue.toInt ≤ x.val := by
      by_contra hlt
      exact hlt (hlong (long_of_lt (Int.not_le.mp hlt)))
    by_cases hup : x.val ≤ Int32.maxValue.toInt
    · exact preserved_of_inInteger ⟨hlo, hup⟩
    · exact preserved_of_gt hx hup

/-- The largest `long` of the theorem and the largest `unsigned int`, both written as a `Decimal`. -/
theorem preserved_large :
    Integral.long.Preserved ⟨2 ^ 53, by decide⟩ ∧ Integral.unsignedInt.Preserved ⟨2 ^ 32 - 1, by decide⟩ :=
  ⟨(integral_preserved_iff .long ⟨2 ^ 53, by decide⟩ (by decide)).mpr fun _ => by decide,
    (integral_preserved_iff .unsignedInt ⟨2 ^ 32 - 1, by decide⟩ (by decide)).mpr nofun⟩

/-- `-2147483649` is written as `2147483647`, which is read back. -/
theorem not_preserved_long :
    ∃ x : Integral.long.Carrier, x.val = -2 ^ 31 - 1 ∧ x.val.natAbs ≤ 2 ^ 53 ∧
      Integral.long.toJson x = .integer 2147483647 ∧ ¬ Integral.long.Preserved x :=
  ⟨⟨-2 ^ 31 - 1, by decide⟩, rfl, by decide, rfl, not_preserved_of_lt (by decide)⟩

/-! ## The overload for `long long` -/

/-- `toJson(long long)`, which no `fromJson` reads. -/
def longLongToJson (i : Int) : Value :=
  if i ≥ Int32.minValue.toInt ∧ i ≤ Int32.maxValue.toInt then .integer (Int32.ofInt i)
  else .decimal (Binary64.ofInt i)

/-- The two overloads for 64-bit integers agree exactly where `long` is written right. -/
theorem toJson_long_eq_iff (x : Integral.long.Carrier) :
    Integral.long.toJson x = longLongToJson x.val ↔ Int32.minValue.toInt ≤ x.val := by
  have hle : Int32.minValue.toInt ≤ Int32.maxValue.toInt := by decide
  rw [toJson, longLongToJson]
  by_cases hlo : Int32.minValue.toInt ≤ x.val
  · simp only [hlo, true_and]
  · rw [if_pos (by omega), if_neg (fun h => hlo h.1)]
    exact iff_of_false nofun hlo

end Integral

end Lsp
