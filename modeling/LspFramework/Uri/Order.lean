import LspFramework.Lib.KeyOrder
import LspFramework.Uri.Record

/-!
# The order of Uris

`operator==` compares the string, the five lengths and the three flags of two Uris, `operator<` the
strings only, in which the components stand without delimiters.  So Uris that cut one string in different
places, or differ in a component that is present and empty, are neither equal nor ordered, and an ordered
container keeps one of them.

    Distinguished a b ↔ (a.data = b.data → SameCuts a b)                             (distinguished_iff)
    a and b stand for records → (… ↔ (r.concat = r'.concat → r = r'))         (distinguished_records_iff)
-/

namespace Lsp.Uri

open Chars KeyOrder

/-- `operator<`; `std::string` compares the bytes as unsigned ones. -/
abbrev Less (a b : Uri) : Prop := Below Uri.data a b

/-- The components end at the same places, and the same ones are there. -/
structure SameCuts (a b : Uri) : Prop where
  schemeLen : a.schemeLen = b.schemeLen
  authorityLen : a.authorityLen = b.authorityLen
  pathLen : a.pathLen = b.pathLen
  queryLen : a.queryLen = b.queryLen
  fragmentLen : a.fragmentLen = b.fragmentLen
  hasAuthority : a.hasAuthority = b.hasAuthority
  hasQuery : a.hasQuery = b.hasQuery
  hasFragment : a.hasFragment = b.hasFragment

/-- Exactly one of `a < b`, `a == b` and `b < a`, and an ordered container that has `a` takes `b` in
unless they are equal. -/
structure Distinguished (a b : Uri) : Prop where
  exactlyOne : ExactlyOne (Less a b) (a = b) (Less b a)
  kept : b ∈ insert Uri.data b (insert Uri.data a [])

/-- `operator==`, member by member. -/
theorem eq_iff {a b : Uri} : a = b ↔ a.data = b.data ∧ SameCuts a b := by
  constructor
  · rintro rfl
    exact ⟨rfl, rfl, rfl, rfl, rfl, rfl, rfl, rfl, rfl⟩
  · rintro ⟨hdata, h₁, h₂, h₃, h₄, h₅, h₆, h₇, h₈⟩
    cases a
    cases b
    simp only [Uri.mk.injEq]
    exact ⟨hdata, h₁, h₂, h₃, h₄, h₅, h₆, h₇, h₈⟩

theorem distinguished_iff_eq {a b : Uri} : Distinguished a b ↔ (a.data = b.data → a = b) := by
  constructor
  · exact fun h => (exactlyOne_iff a b).mp h.exactlyOne
  · exact fun h => ⟨(exactlyOne_iff a b).mpr h, (kept_iff a b).mpr h⟩

/-- **Uris are told apart unless they cut one string differently.** -/
theorem distinguished_iff (a b : Uri) : Distinguished a b ↔ (a.data = b.data → SameCuts a b) := by
  rw [distinguished_iff_eq]
  exact forall_congr' fun hdata => eq_iff.trans (and_iff_right hdata)

/-- For Uris of short components the strings are their components one behind the other. -/
theorem distinguished_records_iff {a b : Uri} {r r' : Record} (ha : Represents a r) (hb : Represents b r') :
    Distinguished a b ↔ (r.concat = r'.concat → r = r') := by
  rw [distinguished_iff_eq, ha.data, hb.data]
  refine forall_congr' fun _ => ⟨fun heq => ?_, fun heq => ?_⟩
  · rw [← ha.fields_eq, ← hb.fields_eq, heq]
  · subst heq
    exact ha.unique hb

/-- `a:b` and `ab:` cut the string `ab` differently, and `a:?` has a query that `a:` has not. -/
theorem not_distinguished :
    ¬ Distinguished (parse (bytes "a:b")) (parse (bytes "ab:")) ∧
      ¬ Distinguished (parse (bytes "a:")) (parse (bytes "a:?")) := by
  simp only [distinguished_iff_eq]
  decide +kernel

end Lsp.Uri
