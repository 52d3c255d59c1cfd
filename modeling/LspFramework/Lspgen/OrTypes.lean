import Mathlib.Data.List.Sort
import LspFramework.Lib.Adjacent
import LspFramework.Lib.Chars

/-!
# lspgen: the alternatives of an `or` type

`OrType::extract` merges neighbouring structure literals of the items that differ only in which properties are
optional.  It compares the names of the properties and not their types, so literals that differ in the type of
a property are merged too, and of the second one only its optional properties are left.

* `MetaType τ`: a type, by whether it is a structure literal; `τ` are the types, at which the loop does not look.
* `extract`: the member `typeList` and the result, with fuel for the loop.

    KeepsAlternatives items ↔
      (structureLiterals items).IsChain fun a b => names a = names b → SameProperties a b     (keeps_iff)
-/

namespace Lsp.OrType

open Chars Adjacent

structure StructureProperty (τ : Type) where
  name : Bytes
  type : τ
  isOptional : Bool := false
  documentation : Bytes := []

inductive MetaType (τ : Type) where
  | structureLiteral (properties : List (StructureProperty τ))
  | other (type : τ)

section Algorithm

variable {τ : Type}

/-! ## Algorithm -/

/-- The comparison of `std::stable_sort`. -/
def nonOptionalFirst (p1 p2 : StructureProperty τ) : Bool := !p1.isOptional && p2.isOptional

/-- The properties in the order of the meta model are sorted so that non-optional ones come first. -/
def extractStructureProperties (json : List (StructureProperty τ)) : List (StructureProperty τ) :=
  json.insertionSort fun p q => nonOptionalFirst q p = false

/-- The literals of the items, with their properties sorted. -/
def structureLiterals (items : List (MetaType τ)) : List (List (StructureProperty τ)) :=
  items.filterMap fun
    | .structureLiteral properties => some (extractStructureProperties properties)
    | .other _ => none

def MetaType.isOther : MetaType τ → Bool
  | .structureLiteral _ => false
  | .other _ => true

def names (properties : List (StructureProperty τ)) : List Bytes := properties.map StructureProperty.name

def propertiesEqual (first second : List (StructureProperty τ)) : Bool :=
  first.length = second.length && (first.zip second).all fun (p, q) => p.name = q.name

def mergeInto (first second : List (StructureProperty τ)) : List (StructureProperty τ) :=
  List.zipWith (fun p q => { p with isOptional := p.isOptional || q.isOptional }) first second

theorem propertiesEqual_iff (first second : List (StructureProperty τ)) :
    propertiesEqual first second = true ↔ names first = names second := by
  induction first generalizing second with
  | nil => cases second <;> simp [propertiesEqual, names]
  | cons p first ih =>
    cases second with
    | nil => simp [propertiesEqual, names]
    | cons q second =>
      have := ih second
      simp only [propertiesEqual, names, List.length_cons, List.zip_cons_cons, List.all_cons, List.map_cons,
        List.cons.injEq, Bool.and_eq_true, decide_eq_true_eq, Nat.add_right_cancel_iff] at this ⊢
      rw [← this]
      exact and_left_comm

/-- Merging changes what is optional, nothing else. -/
theorem map_mergeInto {β : Type} {f : StructureProperty τ → β} (hf : ∀ p b, f { p with isOptional := b } = f p)
    {first second : List (StructureProperty τ)} (h : names first = names second) :
    (mergeInto first second).map f = first.map f := by
  have hlen : first.length = second.length := by simpa [names] using congrArg List.length h
  rw [mergeInto, List.map_zipWith]
  simp only [hf]
  rw [← List.map_uncurry_zip_eq_zipWith]
  show (first.zip second).map (f ∘ Prod.fst) = _
  rw [← List.map_map, List.map_fst_zip hlen.le]

def merging : Merging (List (StructureProperty τ)) (List Bytes) where
  key := names
  mergeable := propertiesEqual
  merge := mergeInto
  mergeable_iff := propertiesEqual_iff
  key_merge _ _ h := map_mergeInto (fun _ _ => rfl) h

def extract (items : List (MetaType τ)) (fuel : Nat) : Option (Except Bytes Unit × List (MetaType τ)) :=
  (Loop.run (turn merging) fuel (start (structureLiterals items))).map fun structureLiterals =>
    let typeList := items.filter MetaType.isOther ++ structureLiterals.map .structureLiteral
    if typeList.isEmpty = true then (.error (bytes "OrType must not be empty!"), typeList) else (.ok (), typeList)

/-! ## What it is to keep -/

/-- The same property names with the same types. -/
def SameProperties (first second : List (StructureProperty τ)) : Prop :=
  (first.map fun p => (p.name, p.type)).Perm (second.map fun p => (p.name, p.type))

def required (properties : List (StructureProperty τ)) : List Bytes :=
  names (properties.filter fun p => !p.isOptional)

structure KeepsAlternatives (items : List (MetaType τ)) : Prop where
  terminates : ∃ r, Loop.Gives (extract items) r
  like : ∀ first second, Merges merging (start (structureLiterals items)) first second →
    SameProperties first second
  literals : ∀ fuel e typeList, extract items fuel = some (e, typeList) →
    ∀ properties, .structureLiteral properties ∈ items → ∃ kept, .structureLiteral kept ∈ typeList ∧
      SameProperties kept properties ∧ required kept ⊆ required properties
  others : ∀ fuel e typeList, extract items fuel = some (e, typeList) →
    typeList.filter MetaType.isOther = items.filter MetaType.isOther

/-! ## Lemmas -/

theorem sameProperties_equivalence : Equivalence (SameProperties (τ := τ)) where
  refl _ := .refl _
  symm h := h.symm
  trans h h' := h.trans h'

theorem sameProperties_mergeInto {first second : List (StructureProperty τ)} (h : names first = names second) :
    SameProperties (mergeInto first second) first := by
  rw [SameProperties, map_mergeInto (fun _ _ => rfl) h]

theorem extract_perm (json : List (StructureProperty τ)) : (extractStructureProperties json).Perm json :=
  List.perm_insertionSort _ _

/-- `kept` stands for `properties`. -/
def Covers (kept properties : List (StructureProperty τ)) : Prop :=
  SameProperties kept properties ∧ required kept ⊆ required properties

theorem mem_required {properties : List (StructureProperty τ)} {name : Bytes} :
    name ∈ required properties ↔ ∃ p ∈ properties, p.isOptional = false ∧ p.name = name := by
  simp [required, names, and_assoc]

theorem covers_of_perm {first second : List (StructureProperty τ)} (h : first.Perm second) : Covers first second := by
  refine ⟨h.map _, ?_⟩
  intro name hname
  obtain ⟨p, hp, hrest⟩ := mem_required.mp hname
  exact mem_required.mpr ⟨p, h.mem_iff.mp hp, hrest⟩

/-- A property that is required of the merged literal is required of both. -/
theorem mem_mergeInto {first second : List (StructureProperty τ)} (h : names first = names second)
    {r : StructureProperty τ} (hr : r ∈ mergeInto first second) (hrequired : r.isOptional = false) :
    (∃ p ∈ first, p.isOptional = false ∧ p.name = r.name) ∧ ∃ q ∈ second, q.isOptional = false ∧ q.name = r.name := by
  induction first generalizing second with
  | nil => cases hr
  | cons p first ih =>
    cases second with
    | nil => cases hr
    | cons q second =>
      obtain ⟨hname, hnames⟩ := List.cons.inj h
      rcases List.mem_cons.mp hr with rfl | hr
      · obtain ⟨hp, hq⟩ := Bool.or_eq_false_iff.mp hrequired
        exact ⟨⟨p, List.mem_cons_self, hp, rfl⟩, q, List.mem_cons_self, hq, hname.symm⟩
      · obtain ⟨⟨p', hp', hrest⟩, q', hq', hrest'⟩ := ih hnames hr
        exact ⟨⟨p', List.mem_cons_of_mem _ hp', hrest⟩, q', List.mem_cons_of_mem _ hq', hrest'⟩

theorem covers_mergeInto {first second : List (StructureProperty τ)} (h : names first = names second)
    (hsame : SameProperties first second) :
    Covers (mergeInto first second) first ∧ Covers (mergeInto first second) second := by
  have hfirst := sameProperties_mergeInto h
  refine ⟨⟨hfirst, ?_⟩, sameProperties_equivalence.trans hfirst hsame, ?_⟩
  · intro name hname
    obtain ⟨r, hr, hrequired, rfl⟩ := mem_required.mp hname
    exact mem_required.mpr (mem_mergeInto h hr hrequired).1
  · intro name hname
    obtain ⟨r, hr, hrequired, rfl⟩ := mem_required.mp hname
    exact mem_required.mpr (mem_mergeInto h hr hrequired).2

theorem Covers.trans {a b c : List (StructureProperty τ)} (h : Covers a b) (h' : Covers b c) : Covers a c :=
  ⟨sameProperties_equivalence.trans h.1 h'.1, List.Subset.trans h.2 h'.2⟩

/-- The types other than structure literals come first, then what the loop left of the literals. -/
theorem extract_cases {items : List (MetaType τ)} {fuel : Nat} {e : Except Bytes Unit}
    {typeList : List (MetaType τ)} (h : extract items fuel = some (e, typeList)) :
    typeList = items.filter MetaType.isOther ++
      (collapsed merging (structureLiterals items)).map .structureLiteral := by
  obtain ⟨literals, hrun, hresult⟩ := Option.map_eq_some_iff.mp h
  obtain rfl := Loop.Ends.unique ⟨fuel, hrun⟩ (ends_collapsed (structureLiterals items))
  dsimp only at hresult
  split at hresult
  · exact (congrArg Prod.snd hresult).symm
  · exact (congrArg Prod.snd hresult).symm

theorem filter_isOther (items : List (MetaType τ)) (literals : List (List (StructureProperty τ))) :
    (items.filter MetaType.isOther ++ literals.map MetaType.structureLiteral).filter MetaType.isOther =
      items.filter MetaType.isOther := by
  have hnone : (literals.map MetaType.structureLiteral).filter (MetaType.isOther (τ := τ)) = [] := by
    rw [List.filter_eq_nil_iff]
    intro t ht
    obtain ⟨properties, -, rfl⟩ := List.mem_map.mp ht
    exact Bool.false_ne_true
  rw [List.filter_append, hnone, List.append_nil, List.filter_filter]
  simp

/-- **When `extract` keeps the alternatives**: where literals that follow one another and have the same names
in the same order have the same types. -/
theorem keeps_iff (items : List (MetaType τ)) :
    KeepsAlternatives items ↔
      (structureLiterals items).IsChain fun a b => names a = names b → SameProperties a b := by
  have hmerges := merges_iff (M := merging) sameProperties_equivalence
    (fun _ _ => sameProperties_mergeInto) (structureLiterals items)
  constructor
  · exact fun h => hmerges.mp h.like
  · intro hchain
    have hcovered : ∀ x ∈ structureLiterals items, ∃ r ∈ collapsed merging (structureLiterals items), Covers r x :=
      covers_collapsed sameProperties_equivalence (fun _ _ => sameProperties_mergeInto)
        (fun a => covers_of_perm (.refl a)) (fun _ _ _ => Covers.trans) (fun _ _ => covers_mergeInto) hchain
    constructor
    case terminates => exact ⟨_, (ends_collapsed (structureLiterals items)).gives.map _⟩
    case like => exact hmerges.mpr hchain
    case literals =>
      intro fuel e typeList hextract properties hitem
      have hmem : extractStructureProperties properties ∈ structureLiterals items :=
        List.mem_filterMap.mpr ⟨_, hitem, rfl⟩
      obtain ⟨kept, hkept, hcovers⟩ := hcovered _ hmem
      rw [extract_cases hextract]
      exact ⟨kept, List.mem_append_right _ (List.mem_map_of_mem hkept),
        hcovers.trans (covers_of_perm (extract_perm properties))⟩
    case others =>
      intro fuel e typeList hextract
      rw [extract_cases hextract]
      exact filter_isOther _ _

end Algorithm

/-! ## Two literals -/

def kindLiteral (kind : Bytes) : List (StructureProperty Bytes) := [{ name := bytes "kind", type := kind }]

/-- `{ kind: 'create' } | { kind: 'rename' }`; of the types, the strings of string literals. -/
def createOrRename : List (MetaType Bytes) :=
  [.structureLiteral (kindLiteral (bytes "create")), .structureLiteral (kindLiteral (bytes "rename"))]

/-- **Of the two, the second is lost.** -/
theorem not_keeps_createOrRename :
    extract createOrRename 2 = some (.ok (), [.structureLiteral (kindLiteral (bytes "create"))]) ∧
      ¬ KeepsAlternatives createOrRename := by
  have hextract : extract createOrRename 2 =
      some (.ok (), [.structureLiteral (kindLiteral (bytes "create"))]) := rfl
  refine ⟨hextract, fun h => ?_⟩
  have hitem : .structureLiteral (kindLiteral (bytes "rename")) ∈ createOrRename := .tail _ (.head _)
  obtain ⟨kept, hkept, hsame, -⟩ := h.literals 2 _ _ hextract _ hitem
  obtain rfl := MetaType.structureLiteral.inj (List.mem_singleton.mp hkept)
  obtain ⟨-, htype⟩ := Prod.mk.inj (List.singleton_perm_singleton.mp hsame)
  exact absurd htype (by decide)

end Lsp.OrType
