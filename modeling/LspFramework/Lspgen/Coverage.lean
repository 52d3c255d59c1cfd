import LspFramework.Lib.Inheritance
import LspFramework.Lspgen.MissingKeys

/-!
# Which keys the generated functions write and read

`ToJson` and `FromJson` of a structure call the functions of all its bases and treat the properties that
are copied from its direct mixins and its own ones.  What stands above a mixin is not copied, and of the
inherited properties that a literal refines only those of the first base are left to it.

* `MetaModel.keysWritten`, `MetaModel.keysRead`: the keys of a run of the functions, with all calls.
* `MetaModel.Covers s`: both treat every key of `s` once and no other.
* `MetaModel.MixinsCopied`, `MetaModel.Refined`, `MetaModel.Distinct`: what a structure and its bases must
  be like.

    Covers s ↔ MixinsCopied s ∧ Refined s ∧ Distinct s
    NamesApart s → Distinct s, so … ↔ MixinsCopied s ∧ Refined s                      (covers_iff)
-/

namespace Lsp.Lspgen

open Chars Lsp.Json

/-! ## Runs -/

/-- The keys that lines of `ToJson` write, when the members are set as `present` says; `guard` is what the
conditions in front of the next statement give.  `none` where a condition has no statement behind it, so
the function does not compile, or a base has no function. -/
def writtenKeys (call : Bytes → Option (List Bytes)) (present : Bytes → Bool) :
    Option Bool → List ToJsonLine → Option (List Bytes)
  | none, [] => some []
  | some _, [] => none
  | guard, .ifValue key :: lines => writtenKeys call present (some (guard.getD true && present key)) lines
  | guard, .assign key :: lines =>
    (writtenKeys call present none lines).map fun keys => if guard.getD true then key :: keys else keys
  | guard, .base name :: lines =>
    if guard.getD true then
      (call name).bind fun keys => (writtenKeys call present none lines).map fun keys' => keys ++ keys'
    else writtenKeys call present none lines

/-- The keys that lines of `FromJson` look up, when no member differs from its literal. -/
def readKeys (call : Bytes → Option (List Bytes)) : List FromJsonLine → Option (List Bytes)
  | [] => some []
  | .base name :: lines => (call name).bind fun keys => (readKeys call lines).map fun keys' => keys ++ keys'
  | .ifFind key :: lines => (readKeys call lines).map fun keys => key :: keys
  | .get key :: lines => (readKeys call lines).map fun keys => key :: keys
  | .returnUnless _ _ :: lines => readKeys call lines

namespace MetaModel

variable (M : MetaModel)

/-- The keys the `ToJson` function of the name writes, with calls nested to a depth. -/
def keysWritten (present : Bytes → Bool) : Nat → Bytes → Option (List Bytes)
  | 0, _ => none
  | depth + 1, name =>
    (M.generated name).bind fun code => writtenKeys (keysWritten present depth) present none code.toJson

/-- The keys the `FromJson` function of the name looks up. -/
def keysRead : Nat → Bytes → Option (List Bytes)
  | 0, _ => none
  | depth + 1, name => (M.generated name).bind fun code => readKeys (keysRead depth) code.fromJson

/-! ## The keys of a structure -/

/-- The properties of a structure: its own, and those of all transitive bases and mixins. -/
inductive HasProperty : Structure → StructureProperty → Prop
  | own {s : Structure} {p : StructureProperty} : p ∈ s.properties → HasProperty s p
  | base {s b : Structure} {p : StructureProperty} : b ∈ M.basesOf s → HasProperty b p → HasProperty s p
  | mixin {s m : Structure} {p : StructureProperty} : m ∈ M.mixinsOf s → HasProperty m p → HasProperty s p

def HasKey (s : Structure) (key : Bytes) : Prop := ∃ p, M.HasProperty s p ∧ p.name = key

/-- The functions emitted for the structure treat each of its keys once, and no other. -/
structure Covers (s : Structure) : Prop where
  /-- A key is written when its member is set; a required one always. -/
  writes : ∀ present, ∃ depth keys, M.keysWritten present depth s.name = some keys ∧ keys.Nodup ∧
    (∀ key ∈ keys, M.HasKey s key) ∧
    ∀ key, M.HasKey s key →
      present key = true ∨ (∀ p, M.HasProperty s p → p.name = key → p.isOptional = false) → key ∈ keys
  reads : ∃ depth keys, M.keysRead depth s.name = some keys ∧ keys.Nodup ∧
    ∀ key, key ∈ keys ↔ M.HasKey s key

/-! ## Shapes of structures -/

/-- `t` is `s` or one of its transitive bases. -/
abbrev Extends (s t : Structure) : Prop := Inheritance.Reaches M.basesOf s t

/-- The keys of the properties that the code is generated from, in the structure or one of its bases. -/
def EmittedKey (s : Structure) (key : Bytes) : Prop :=
  Inheritance.Has M.basesOf (fun t => (M.allProperties t).map (·.name)) s key

/-- The keys of a mixin, with all that stands above it, are among those the code is generated from. -/
def MixinsCopied (s : Structure) : Prop :=
  ∀ t, M.Extends s t → ∀ m ∈ M.mixinsOf t, ∀ key, M.HasKey m key → M.EmittedKey s key

/-- A property with a key that a base has is a literal and not optional, and the first base has a property
of its own with this key. -/
def RefinedAt (t : Structure) : Prop :=
  ∀ p ∈ M.allProperties t, (∃ b ∈ M.basesOf t, M.EmittedKey b p.name) →
    M.InheritedLiteral t p ∧ p.isOptional = false

/-- Two bases share no key, and of two properties with one name one is left to the first base. -/
def DistinctAt (t : Structure) : Prop :=
  ((M.basesOf t).Pairwise fun b c => ∀ key, M.EmittedKey b key → ¬ M.EmittedKey c key) ∧
    (M.allProperties t).Pairwise fun p q =>
      p.name = q.name → M.InheritedLiteral t p ∨ M.InheritedLiteral t q

def Refined (s : Structure) : Prop := ∀ t, M.Extends s t → M.RefinedAt t

def Distinct (s : Structure) : Prop := ∀ t, M.Extends s t → M.DistinctAt t

/-- The own, inherited and mixed-in names of a structure do not repeat, except where a literal property
refines an inherited one; the same for all that stand above it. -/
inductive NamesApart : Structure → Prop
  | intro {s : Structure} :
      (s.properties.map (·.name)).Nodup →
      ((M.basesOf s).Pairwise fun b c => ∀ key, M.HasKey b key → ¬ M.HasKey c key) →
      ((M.mixinsOf s).Pairwise fun m n => ∀ key, M.HasKey m key → ¬ M.HasKey n key) →
      (∀ p ∈ s.properties, ∀ m ∈ M.mixinsOf s, ¬ M.HasKey m p.name) →
      (∀ p, p ∈ s.properties ∨ (∃ m ∈ M.mixinsOf s, M.HasProperty m p) →
        (∃ b ∈ M.basesOf s, M.HasKey b p.name) → p.type.isLiteral = true) →
      (∀ t ∈ M.basesOf s ++ M.mixinsOf s, NamesApart t) → NamesApart s

end MetaModel

/-! ## What the lines of a structure do -/

/-- The keys that the lines of one property look up, and write. -/
def readOf (inherited : List Bytes) (p : StructureProperty) : List Bytes :=
  if !p.isOptional && (p.type.isLiteral && inherited.contains p.name) then [] else [p.name]

def writtenOf (present : Bytes → Bool) (inherited : List Bytes) (p : StructureProperty) : List Bytes :=
  if p.type.isLiteral && inherited.contains p.name then []
  else if !p.isOptional || present p.name then [p.name]
  else []

section Lines

variable {call : Bytes → Option (List Bytes)}

theorem readKeys_append (lines lines' : List FromJsonLine) :
    readKeys call (lines ++ lines') =
      (readKeys call lines).bind fun keys => (readKeys call lines').map fun keys' => keys ++ keys' := by
  induction lines with
  | nil => simp [readKeys]
  | cons line lines ih =>
    cases line with
    | base name =>
      simp only [List.cons_append, readKeys, ih]
      cases call name <;> cases readKeys call lines <;> cases readKeys call lines' <;> simp
    | returnUnless key literal => simpa [readKeys] using ih
    | _ =>
      simp only [List.cons_append, readKeys, ih]
      cases readKeys call lines <;> cases readKeys call lines' <;> simp

theorem readKeys_property (inherited : List Bytes) (p : StructureProperty) :
    readKeys call (fromJsonLines inherited p) = some (readOf inherited p) := by
  unfold fromJsonLines readOf
  cases p.isOptional <;> cases p.type.isLiteral && inherited.contains p.name <;>
    cases p.type.literalValue <;> rfl

theorem readKeys_properties (inherited : List Bytes) (properties : List StructureProperty) :
    readKeys call (properties.flatMap (fromJsonLines inherited)) =
      some (properties.flatMap (readOf inherited)) := by
  induction properties with
  | nil => rfl
  | cons p ps ih =>
    rw [List.flatMap_cons, readKeys_append, readKeys_property, ih, List.flatMap_cons]
    rfl

theorem readKeys_bases {bases : List Structure} {keys : Structure → List Bytes}
    (h : ∀ b ∈ bases, call b.name = some (keys b)) :
    readKeys call (bases.map fun b => .base b.name) = some (bases.flatMap keys) := by
  induction bases with
  | nil => rfl
  | cons b bs ih =>
    rw [List.map_cons, readKeys, h b List.mem_cons_self, ih fun c hc => h c (List.mem_cons_of_mem _ hc)]
    rfl

/-- The functions of all bases have run. -/
theorem call_of_readKeys {lines : List FromJsonLine} {keys : List Bytes} (h : readKeys call lines = some keys)
    {name : Bytes} (hmem : .base name ∈ lines) : ∃ keys', call name = some keys' := by
  induction lines generalizing keys with
  | nil => cases hmem
  | cons line lines ih =>
    rcases List.mem_cons.mp hmem with rfl | hlines
    · rw [readKeys] at h
      obtain ⟨keys', hcall, -⟩ := Option.bind_eq_some_iff.mp h
      exact ⟨keys', hcall⟩
    · cases line with
      | base b =>
        rw [readKeys] at h
        obtain ⟨keys', -, h⟩ := Option.bind_eq_some_iff.mp h
        obtain ⟨keys'', h, -⟩ := Option.map_eq_some_iff.mp h
        exact ih h hlines
      | returnUnless key literal => exact ih h hlines
      | _ =>
        rw [readKeys] at h
        obtain ⟨keys', h, -⟩ := Option.map_eq_some_iff.mp h
        exact ih h hlines

variable {present : Bytes → Bool}

theorem writtenKeys_bases {bases : List Structure} {keys : Structure → List Bytes}
    (h : ∀ b ∈ bases, call b.name = some (keys b)) (lines : List ToJsonLine) :
    writtenKeys call present none ((bases.map fun b => .base b.name) ++ lines) =
      (writtenKeys call present none lines).map fun keys' => bases.flatMap keys ++ keys' := by
  induction bases with
  | nil => simp only [List.map_nil, List.nil_append, List.flatMap_nil, Option.map_id']
  | cons b bs ih =>
    rw [List.map_cons, List.cons_append, writtenKeys, h b List.mem_cons_self,
      ih fun c hc => h c (List.mem_cons_of_mem _ hc)]
    cases writtenKeys call present none lines <;> simp

/-- A condition stands in front of an assignment unless an optional literal is left to the base. -/
theorem writtenKeys_property {inherited : List Bytes} {p : StructureProperty}
    (h : (p.type.isLiteral && inherited.contains p.name) = true → p.isOptional = false)
    (lines : List ToJsonLine) :
    writtenKeys call present none (toJsonLines inherited p ++ lines) =
      (writtenKeys call present none lines).map fun keys => writtenOf present inherited p ++ keys := by
  unfold toJsonLines writtenOf
  cases hinh : p.type.isLiteral && inherited.contains p.name with
  | true =>
    rw [h hinh]
    cases hl : writtenKeys call present none lines <;> simp [hl]
  | false =>
    cases p.isOptional <;> cases hp : present p.name <;> cases hl : writtenKeys call present none lines <;>
      simp [writtenKeys, hp, hl]

theorem writtenKeys_properties {inherited : List Bytes} {properties : List StructureProperty}
    (h : ∀ p ∈ properties, (p.type.isLiteral && inherited.contains p.name) = true → p.isOptional = false) :
    writtenKeys call present none (properties.flatMap (toJsonLines inherited)) =
      some (properties.flatMap (writtenOf present inherited)) := by
  induction properties with
  | nil => rfl
  | cons p ps ih =>
    rw [List.flatMap_cons, writtenKeys_property (h p List.mem_cons_self),
      ih fun q hq => h q (List.mem_cons_of_mem _ hq), List.flatMap_cons]
    rfl

theorem writtenOf_sublist (present : Bytes → Bool) (inherited : List Bytes) (p : StructureProperty) :
    (writtenOf present inherited p).Sublist (readOf inherited p) := by
  unfold writtenOf readOf
  cases p.type.isLiteral && inherited.contains p.name <;> cases p.isOptional <;> cases present p.name <;> simp

end Lines

/-! ## What the functions of a structure do -/

namespace MetaModel

open Inheritance

variable {M : MetaModel} {s t : Structure} {p : StructureProperty}

/-- The keys that the lines of the structure itself look up, and write. -/
def readOwn (M : MetaModel) (s : Structure) : List Bytes :=
  (M.allProperties s).flatMap (readOf (M.inheritedNames s))

def writtenOwn (M : MetaModel) (present : Bytes → Bool) (s : Structure) : List Bytes :=
  (M.allProperties s).flatMap (writtenOf present (M.inheritedNames s))

theorem writtenOwn_sublist (M : MetaModel) (present : Bytes → Bool) (s : Structure) :
    (M.writtenOwn present s).Sublist (M.readOwn s) := by
  unfold writtenOwn readOwn
  generalize M.allProperties s = properties
  induction properties with
  | nil => exact .refl _
  | cons p ps ih => exact (writtenOf_sublist _ _ p).append ih

theorem inheritedLiteral_iff :
    (p.type.isLiteral && (M.inheritedNames s).contains p.name) = true ↔ M.InheritedLiteral s p := by
  rw [Bool.and_eq_true, List.contains_iff_mem, InheritedLiteral]

theorem readOf_eq (h : ¬ (M.InheritedLiteral s p ∧ p.isOptional = false)) :
    readOf (M.inheritedNames s) p = [p.name] := by
  rw [← inheritedLiteral_iff] at h
  unfold readOf
  rw [if_neg]
  simpa [and_comm] using h

theorem readOf_eq_nil (h : M.InheritedLiteral s p) (hopt : p.isOptional = false) :
    readOf (M.inheritedNames s) p = [] := by
  unfold readOf
  rw [if_pos]
  simp only [inheritedLiteral_iff.mpr h, hopt, Bool.not_false, Bool.and_self]

theorem mem_readOf {key : Bytes} :
    key ∈ readOf (M.inheritedNames s) p ↔
      p.name = key ∧ ¬ (M.InheritedLiteral s p ∧ p.isOptional = false) := by
  by_cases h : M.InheritedLiteral s p ∧ p.isOptional = false
  · rw [readOf_eq_nil h.1 h.2]
    exact ⟨nofun, fun hk => absurd h hk.2⟩
  · rw [readOf_eq h, List.mem_singleton]
    exact ⟨fun hk => ⟨hk.symm, h⟩, fun hk => hk.1.symm⟩

theorem mem_writtenOf {present : Bytes → Bool} {key : Bytes} :
    key ∈ writtenOf present (M.inheritedNames s) p ↔
      p.name = key ∧ ¬ M.InheritedLiteral s p ∧ (p.isOptional = false ∨ present p.name = true) := by
  rw [← inheritedLiteral_iff]
  unfold writtenOf
  cases p.type.isLiteral && (M.inheritedNames s).contains p.name <;> cases p.isOptional <;>
    cases present p.name <;> simp [eq_comm]

/-- The first base has a property with the name of a literal that is left to it. -/
theorem base_of_inheritedLiteral (h : M.InheritedLiteral s p) :
    ∃ b ∈ M.basesOf s, ∃ q ∈ b.properties, q.name = p.name := by
  obtain ⟨-, hname⟩ := h
  unfold inheritedNames at hname
  split at hname
  · next b hb =>
    obtain ⟨ref, href, hb⟩ := Option.bind_eq_some_iff.mp hb
    obtain ⟨q, hq, hqname⟩ := List.mem_map.mp hname
    exact ⟨b, List.mem_filterMap.mpr ⟨ref, List.mem_of_mem_head? href, hb⟩, q, hq, hqname⟩
  · cases hname

theorem mem_allProperties_of_own (h : p ∈ s.properties) : p ∈ M.allProperties s :=
  List.mem_append_right _ h

theorem mem_allProperties :
    p ∈ M.allProperties s ↔ (∃ m ∈ M.mixinsOf s, p ∈ m.properties) ∨ p ∈ s.properties := by
  rw [allProperties, List.mem_append, List.mem_flatMap]

theorem emittedKey_iff {key : Bytes} :
    M.EmittedKey s key ↔
      (∃ p ∈ M.allProperties s, p.name = key) ∨ ∃ b ∈ M.basesOf s, M.EmittedKey b key := by
  rw [EmittedKey, has_iff, List.mem_map]
  rfl

theorem emittedKey_of_inheritedLiteral (h : M.InheritedLiteral s p) :
    ∃ b ∈ M.basesOf s, M.EmittedKey b p.name := by
  obtain ⟨b, hb, q, hq, hname⟩ := base_of_inheritedLiteral h
  exact ⟨b, hb, emittedKey_iff.mpr (.inl ⟨q, mem_allProperties_of_own hq, hname⟩)⟩

/-- What is left to a base is looked up there, or further above. -/
theorem has_readOwn_iff {depth : Nat} (h : Bounded M.basesOf depth s) {key : Bytes} :
    Inheritance.Has M.basesOf M.readOwn s key ↔ M.EmittedKey s key := by
  induction depth generalizing s with
  | zero => exact h.elim
  | succ depth ih =>
    have hbases : (∃ b ∈ M.basesOf s, Inheritance.Has M.basesOf M.readOwn b key) ↔
        ∃ b ∈ M.basesOf s, M.EmittedKey b key :=
      exists_congr fun b => and_congr_right fun hb => ih (h b hb)
    rw [has_iff, emittedKey_iff, hbases]
    constructor
    · rintro (hk | hb)
      · obtain ⟨p, hp, hpk⟩ := List.mem_flatMap.mp hk
        exact .inl ⟨p, hp, (mem_readOf.mp hpk).1⟩
      · exact .inr hb
    · rintro (⟨p, hp, rfl⟩ | hb)
      · by_cases hleft : M.InheritedLiteral s p ∧ p.isOptional = false
        · exact .inr (emittedKey_of_inheritedLiteral hleft.1)
        · exact .inl (List.mem_flatMap.mpr ⟨p, hp, mem_readOf.mpr ⟨rfl, hleft⟩⟩)
      · exact .inr hb

section Apart

variable (hhas : ∀ b ∈ M.basesOf t, ∀ key, Inheritance.Has M.basesOf M.readOwn b key ↔ M.EmittedKey b key)

include hhas

theorem basesApart_iff :
    ((M.basesOf t).Pairwise fun b c =>
        ∀ k, Inheritance.Has M.basesOf M.readOwn b k → ¬ Inheritance.Has M.basesOf M.readOwn c k) ↔
      (M.basesOf t).Pairwise fun b c => ∀ key, M.EmittedKey b key → ¬ M.EmittedKey c key := by
  refine List.Pairwise.iff_of_mem fun {b c} hb hc => forall_congr' fun k => ?_
  rw [hhas b hb, hhas c hc]

theorem shape_of_apart (h : Apart M.basesOf M.readOwn t) : M.RefinedAt t ∧ M.DistinctAt t := by
  obtain ⟨hnodup, hparents, hown⟩ := h
  refine ⟨?_, (basesApart_iff hhas).mp hparents, (List.nodup_flatMap.mp hnodup).2.imp ?_⟩
  · rintro p hp ⟨b, hb, hkey⟩
    by_contra hleft
    refine hown p.name (List.mem_flatMap.mpr ⟨p, hp, mem_readOf.mpr ⟨rfl, hleft⟩⟩) b hb ?_
    exact (hhas b hb p.name).mpr hkey
  · intro p q hdisjoint hname
    by_contra hneither
    rw [not_or] at hneither
    refine hdisjoint (a := p.name) (mem_readOf.mpr ⟨rfl, fun hl => hneither.1 hl.1⟩) ?_
    exact mem_readOf.mpr ⟨hname.symm, fun hl => hneither.2 hl.1⟩

theorem apart_of_shape (hrefined : M.RefinedAt t) (hdistinct : M.DistinctAt t) :
    Apart M.basesOf M.readOwn t := by
  obtain ⟨hparents, hone⟩ := hdistinct
  have hleft : ∀ p ∈ M.allProperties t, M.InheritedLiteral t p → p.isOptional = false := fun p hp hl =>
    (hrefined p hp (emittedKey_of_inheritedLiteral hl)).2
  refine ⟨List.nodup_flatMap.mpr ⟨?_, ?_⟩, (basesApart_iff hhas).mpr hparents, ?_⟩
  · intro p _
    unfold readOf
    split <;> simp
  · refine hone.imp_of_mem fun {p q} hp hq hpq key hkp hkq => ?_
    obtain ⟨rfl, hpread⟩ := mem_readOf.mp hkp
    obtain ⟨hname, hqread⟩ := mem_readOf.mp hkq
    rcases hpq hname.symm with hl | hl
    · exact hpread ⟨hl, hleft p hp hl⟩
    · exact hqread ⟨hl, hleft q hq hl⟩
  · intro key hk b hb hhasb
    obtain ⟨p, hp, hpk⟩ := List.mem_flatMap.mp hk
    obtain ⟨rfl, hread⟩ := mem_readOf.mp hpk
    exact hread (hrefined p hp ⟨b, hb, (hhas b hb p.name).mp hhasb⟩)

end Apart

/-- No key is looked up twice at a structure, in terms of its properties. -/
theorem apart_iff {depth : Nat} (h : Bounded M.basesOf depth t) :
    Apart M.basesOf M.readOwn t ↔ M.RefinedAt t ∧ M.DistinctAt t := by
  have hhas : ∀ b ∈ M.basesOf t, ∀ key, Inheritance.Has M.basesOf M.readOwn b key ↔ M.EmittedKey b key := by
    intro b hb key
    obtain ⟨depth', hbounded⟩ := h.reaches (.parent hb)
    exact has_readOwn_iff hbounded
  exact ⟨shape_of_apart hhas, fun ⟨hrefined, hdistinct⟩ => apart_of_shape hhas hrefined hdistinct⟩

/-! ## Runs of the functions -/

theorem keysRead_collect (hcomplete : M.Complete) {depth : Nat} (hs : M.Has s)
    (h : Bounded M.basesOf depth s) :
    M.keysRead depth s.name = some (collect M.basesOf M.readOwn depth s) := by
  induction depth generalizing s with
  | zero => exact h.elim
  | succ depth ih =>
    obtain ⟨code, hgen⟩ := hcomplete s.name s hs
    rw [keysRead, generated_eq_some_iff.mpr ⟨s, hs, rfl, hgen⟩, Option.bind_some, generate_fromJson hgen,
      readKeys_append, readKeys_bases fun b hb => ih (has_of_mem_basesOf hb) (h b hb), readKeys_properties]
    rfl

theorem bounded_of_keysRead (hcomplete : M.Complete) {depth : Nat} {keys : List Bytes} (hs : M.Has s)
    (h : M.keysRead depth s.name = some keys) : Bounded M.basesOf depth s := by
  induction depth generalizing s keys with
  | zero => cases h
  | succ depth ih =>
    intro b hb
    obtain ⟨code, hgen⟩ := hcomplete s.name s hs
    rw [keysRead, generated_eq_some_iff.mpr ⟨s, hs, rfl, hgen⟩, Option.bind_some] at h
    obtain ⟨keys', hcall⟩ := call_of_readKeys h ((base_mem_fromJson hgen b.name).mpr ⟨b, hb, rfl⟩)
    exact ih (has_of_mem_basesOf hb) hcall

theorem keysRead_eq_some_iff (hcomplete : M.Complete) {depth : Nat} {keys : List Bytes} (hs : M.Has s) :
    M.keysRead depth s.name = some keys ↔
      Bounded M.basesOf depth s ∧ keys = collect M.basesOf M.readOwn depth s := by
  constructor
  · intro h
    have hbounded := bounded_of_keysRead hcomplete hs h
    rw [keysRead_collect hcomplete hs hbounded] at h
    exact ⟨hbounded, (Option.some.inj h).symm⟩
  · rintro ⟨hbounded, rfl⟩
    exact keysRead_collect hcomplete hs hbounded

theorem keysWritten_collect (hcomplete : M.Complete) (present : Bytes → Bool) {depth : Nat} (hs : M.Has s)
    (h : Bounded M.basesOf depth s) (hrefined : M.Refined s) :
    M.keysWritten present depth s.name = some (collect M.basesOf (M.writtenOwn present) depth s) := by
  induction depth generalizing s with
  | zero => exact h.elim
  | succ depth ih =>
    obtain ⟨code, hgen⟩ := hcomplete s.name s hs
    obtain ⟨hown, hbases⟩ := forall_reaches_iff.mp hrefined
    have hcall : ∀ b ∈ M.basesOf s, M.keysWritten present depth b.name =
        some (collect M.basesOf (M.writtenOwn present) depth b) := fun b hb =>
      ih (has_of_mem_basesOf hb) (h b hb) (hbases b hb)
    have hleft : ∀ p ∈ M.allProperties s,
        (p.type.isLiteral && (M.inheritedNames s).contains p.name) = true → p.isOptional = false :=
      fun p hp hl => (hown p hp (emittedKey_of_inheritedLiteral (inheritedLiteral_iff.mp hl))).2
    rw [keysWritten, generated_eq_some_iff.mpr ⟨s, hs, rfl, hgen⟩, Option.bind_some, generate_toJson hgen,
      writtenKeys_bases hcall, writtenKeys_properties hleft]
    rfl

/-! ## All keys -/

theorem hasKey_of_extends (h : M.Extends s t) {key : Bytes} (hk : M.HasKey t key) : M.HasKey s key := by
  induction h with
  | refl => exact hk
  | tail _ hb ih =>
    obtain ⟨p, hp, hname⟩ := hk
    exact ih ⟨p, .base hb hp, hname⟩

theorem hasProperty_of_mem_allProperties (h : p ∈ M.allProperties s) : M.HasProperty s p := by
  rcases mem_allProperties.mp h with ⟨m, hm, hp⟩ | hp
  · exact .mixin hm (.own hp)
  · exact .own hp

/-- No key is emitted that the structure does not have. -/
theorem hasKey_of_emittedKey {key : Bytes} (h : M.EmittedKey s key) : M.HasKey s key := by
  obtain ⟨t, ht, hk⟩ := h
  obtain ⟨p, hp, rfl⟩ := List.mem_map.mp hk
  exact hasKey_of_extends ht ⟨p, hasProperty_of_mem_allProperties hp, rfl⟩

theorem emittedKey_of_extends (h : M.Extends s t) {key : Bytes} (hk : M.EmittedKey t key) :
    M.EmittedKey s key := by
  obtain ⟨u, hu, hkey⟩ := hk
  exact ⟨u, h.trans hu, hkey⟩

theorem mixinsCopied_iff : M.MixinsCopied s ↔ ∀ key, M.HasKey s key → M.EmittedKey s key := by
  constructor
  · intro h
    have hall : ∀ t p, M.HasProperty t p → M.Extends s t → M.EmittedKey s p.name := by
      intro t p hp
      induction hp with
      | own hp =>
        exact fun ht => emittedKey_of_extends ht
          (emittedKey_iff.mpr (.inl ⟨_, mem_allProperties_of_own hp, rfl⟩))
      | base hb _ ih => exact fun ht => ih (ht.tail hb)
      | mixin hm hp _ => exact fun ht => h _ ht _ hm _ ⟨_, hp, rfl⟩
    rintro key ⟨p, hp, rfl⟩
    exact hall s p hp .refl
  · rintro h t ht m hm key ⟨p, hp, rfl⟩
    exact h p.name (hasKey_of_extends ht ⟨p, .mixin hm hp, rfl⟩)

theorem exists_bounded (hacyclic : M.Acyclic) (hs : M.Has s) : ∃ depth, Bounded M.basesOf depth s := by
  obtain ⟨rank, hrank⟩ := hacyclic
  refine ⟨rank s.name + 1, .of_rank (fun s => rank s.name) (p := M.Has) ?_ hs (Nat.lt_succ_self _)⟩
  intro t ht b hb
  obtain ⟨ref, href, hbref⟩ := List.mem_filterMap.mp hb
  exact ⟨has_of_mem_basesOf hb, hrank t.name t ht ref (List.mem_append_left _ href) b hbref⟩

/-- `FromJson` looks up every key once in structures of the right shape only. -/
theorem reads_iff_shape (hacyclic : M.Acyclic) (hcomplete : M.Complete) (hs : M.Has s) :
    (∃ depth keys, M.keysRead depth s.name = some keys ∧ keys.Nodup ∧ ∀ key, key ∈ keys ↔ M.HasKey s key) ↔
      M.MixinsCopied s ∧ M.Refined s ∧ M.Distinct s := by
  have hshape : ∀ depth, Bounded M.basesOf depth s →
      ((collect M.basesOf M.readOwn depth s).Nodup ↔ M.Refined s ∧ M.Distinct s) := by
    intro depth hbounded
    rw [nodup_collect hbounded, Refined, Distinct, ← forall₂_and]
    refine forall₂_congr fun t ht => ?_
    obtain ⟨depth', ht'⟩ := hbounded.reaches ht
    exact apart_iff ht'
  have hmem : ∀ depth, Bounded M.basesOf depth s → ∀ key,
      key ∈ collect M.basesOf M.readOwn depth s ↔ M.EmittedKey s key := fun depth hbounded key => by
    rw [mem_collect hbounded, has_readOwn_iff hbounded]
  constructor
  · rintro ⟨depth, keys, hkeys, hnodup, hall⟩
    obtain ⟨hbounded, rfl⟩ := (keysRead_eq_some_iff hcomplete hs).mp hkeys
    refine ⟨mixinsCopied_iff.mpr fun key hk => ?_, (hshape depth hbounded).mp hnodup⟩
    exact (hmem depth hbounded key).mp ((hall key).mpr hk)
  · rintro ⟨hcopied, hrest⟩
    obtain ⟨depth, hbounded⟩ := exists_bounded hacyclic hs
    have hread := keysRead_collect hcomplete hs hbounded
    refine ⟨depth, _, hread, (hshape depth hbounded).mpr hrest, fun key => ?_⟩
    rw [hmem depth hbounded]
    exact ⟨hasKey_of_emittedKey, mixinsCopied_iff.mp hcopied key⟩

/-- A key whose member is set, or that is required, is written. -/
theorem mem_written {present : Bytes → Bool} {depth : Nat} (h : Bounded M.basesOf depth s) {key : Bytes}
    (hk : M.EmittedKey s key)
    (hset : present key = true ∨ ∀ p, M.HasProperty s p → p.name = key → p.isOptional = false) :
    key ∈ collect M.basesOf (M.writtenOwn present) depth s := by
  induction depth generalizing s with
  | zero => exact h.elim
  | succ depth ih =>
    have hbase : (∃ b ∈ M.basesOf s, M.EmittedKey b key) →
        key ∈ collect M.basesOf (M.writtenOwn present) (depth + 1) s := by
      rintro ⟨b, hb, hkb⟩
      have := ih (h b hb) hkb (hset.imp_right fun hreq p hp => hreq p (.base hb hp))
      exact List.mem_append_left _ (List.mem_flatMap.mpr ⟨b, hb, this⟩)
    rcases emittedKey_iff.mp hk with ⟨p, hp, rfl⟩ | hb
    · by_cases hl : M.InheritedLiteral s p
      · exact hbase (emittedKey_of_inheritedLiteral hl)
      · refine List.mem_append_right _ (List.mem_flatMap.mpr ⟨p, hp, mem_writtenOf.mpr ⟨rfl, hl, ?_⟩⟩)
        exact (hset.imp_right fun hreq => hreq p (hasProperty_of_mem_allProperties hp) rfl).symm
    · exact hbase hb

/-- **The functions cover the structures of the right shape, and no others.** -/
theorem covers_iff_shape (hacyclic : M.Acyclic) (hcomplete : M.Complete) (hs : M.Has s) :
    M.Covers s ↔ M.MixinsCopied s ∧ M.Refined s ∧ M.Distinct s := by
  have hreads := reads_iff_shape hacyclic hcomplete hs
  constructor
  · exact fun h => hreads.mp h.reads
  · intro h
    obtain ⟨depth, keys, hkeys, hnodup, hall⟩ := hreads.mpr h
    obtain ⟨hcopied, hrefined, -⟩ := h
    obtain ⟨hbounded, rfl⟩ := (keysRead_eq_some_iff hcomplete hs).mp hkeys
    refine ⟨fun present => ?_, ⟨depth, _, hkeys, hnodup, hall⟩⟩
    have hwritten := keysWritten_collect hcomplete present hs hbounded hrefined
    -- the keys that are written are among those that are looked up
    have hsub := collect_sublist M.basesOf (M.writtenOwn_sublist present) depth s
    refine ⟨depth, _, hwritten, ?_⟩
    exact ⟨hnodup.sublist hsub, fun key hk => (hall key).mp (hsub.subset hk),
      fun key hk hset => mem_written hbounded (mixinsCopied_iff.mp hcopied key hk) hset⟩

/-! ## Names that do not repeat -/

theorem NamesApart.extends (h : M.NamesApart s) (ht : M.Extends s t) : M.NamesApart t := by
  induction ht with
  | refl => exact h
  | tail _ hb ih =>
    obtain ⟨-, -, -, -, -, hparents⟩ := ih
    exact hparents _ (List.mem_append_left _ hb)

theorem NamesApart.distinctAt (h : M.NamesApart t) : M.DistinctAt t := by
  obtain ⟨hown, hbases, hmixins, hmixed, -, hparents⟩ := h
  refine ⟨hbases.imp fun hbc key hb hc => hbc key (hasKey_of_emittedKey hb) (hasKey_of_emittedKey hc), ?_⟩
  have hpairwise : (M.allProperties t).Pairwise fun p q => p.name ≠ q.name := by
    refine List.pairwise_append.mpr ⟨List.pairwise_flatMap.mpr ⟨?_, ?_⟩, List.pairwise_map.mp hown, ?_⟩
    · intro m hm
      obtain ⟨hown, -⟩ := hparents m (List.mem_append_right _ hm)
      exact List.pairwise_map.mp hown
    · exact hmixins.imp fun hmn p hp q hq hname => hmn p.name ⟨p, .own hp, rfl⟩ ⟨q, .own hq, hname.symm⟩
    · intro p hp q hq hname
      obtain ⟨m, hm, hpm⟩ := List.mem_flatMap.mp hp
      exact hmixed q hq m hm ⟨p, .own hpm, hname⟩
  exact hpairwise.imp fun hne hname => absurd hname hne

theorem NamesApart.distinct (h : M.NamesApart s) : M.Distinct s := fun _ ht => (h.extends ht).distinctAt

/-- **When the generated functions cover a structure.**  For every acyclic meta model that code is generated
for: the functions of a structure write and read each of its keys once and no other, exactly when no mixin
drops a key, every literal refines a property of a first base, and the names are distinct; the last holds
when the names of the structure do not repeat. -/
theorem covers_iff (M : MetaModel) (hacyclic : M.Acyclic) (hcomplete : M.Complete) (s : Structure)
    (hs : M.Has s) :
    (M.Covers s ↔ M.MixinsCopied s ∧ M.Refined s ∧ M.Distinct s) ∧
      (M.NamesApart s → (M.Covers s ↔ M.MixinsCopied s ∧ M.Refined s)) := by
  have hshape := covers_iff_shape hacyclic hcomplete hs
  refine ⟨hshape, fun h => hshape.trans ?_⟩
  exact ⟨fun ⟨hcopied, hrefined, _⟩ => ⟨hcopied, hrefined⟩,
    fun ⟨hcopied, hrefined⟩ => ⟨hcopied, hrefined, h.distinct⟩⟩

theorem hasKey_iff {key : Bytes} :
    M.HasKey s key ↔ (∃ p ∈ s.properties, p.name = key) ∨ (∃ b ∈ M.basesOf s, M.HasKey b key) ∨
      ∃ m ∈ M.mixinsOf s, M.HasKey m key := by
  constructor
  · rintro ⟨p, hp, rfl⟩
    cases hp with
    | own hp => exact .inl ⟨p, hp, rfl⟩
    | base hb hp => exact .inr (.inl ⟨_, hb, p, hp, rfl⟩)
    | mixin hm hp => exact .inr (.inr ⟨_, hm, p, hp, rfl⟩)
  · rintro (⟨p, hp, rfl⟩ | ⟨b, hb, p, hp, rfl⟩ | ⟨m, hm, p, hp, rfl⟩)
    · exact ⟨p, .own hp, rfl⟩
    · exact ⟨p, .base hb hp, rfl⟩
    · exact ⟨p, .mixin hm hp, rfl⟩

end MetaModel

/-! ## Structures of the shapes -/

/-- The literal of a structure of the protocol refines the property of its only base. -/
theorem covers_createFile : protocol.Covers createFile := by
  have hown : protocol.allProperties createFile = createFile.properties := rfl
  have hbases : protocol.basesOf createFile = [resourceOperation] := rfl
  have habove : protocol.basesOf resourceOperation = [] := rfl
  have hkey : ∀ key, protocol.EmittedKey resourceOperation key → key = bytes "kind" := by
    intro key hk
    rcases MetaModel.emittedKey_iff.mp hk with ⟨p, hp, rfl⟩ | ⟨b, hb, -⟩
    · obtain rfl := List.mem_singleton.mp hp
      rfl
    · simp [habove] at hb
  have hextends : ∀ t, protocol.Extends createFile t → t = createFile ∨ t = resourceOperation := by
    intro t ht
    obtain rfl | ⟨b, hb, hbt⟩ := Inheritance.reaches_iff.mp ht
    · exact .inl rfl
    · obtain rfl : b = resourceOperation := by simpa [hbases] using hb
      obtain rfl | ⟨c, hc, -⟩ := Inheritance.reaches_iff.mp hbt
      · exact .inr rfl
      · simp [habove] at hc
  refine (protocol.covers_iff protocol_acyclic protocol_complete createFile rfl).1.mpr ⟨?_, ?_, ?_⟩
  · intro t ht m hm
    rcases hextends t ht with rfl | rfl
    · exact absurd hm (List.not_mem_nil (a := m))
    · exact absurd hm (List.not_mem_nil (a := m))
  · rintro t ht p hp ⟨b, hb, hk⟩
    rcases hextends t ht with rfl | rfl
    · obtain rfl : b = resourceOperation := by simpa [hbases] using hb
      rw [hown] at hp
      simp only [createFile, List.mem_cons, List.not_mem_nil, or_false] at hp
      rcases hp with rfl | rfl
      · exact ⟨⟨rfl, List.mem_cons_self⟩, rfl⟩
      · exact absurd (hkey _ hk) (by decide)
    · simp [habove] at hb
  · intro t ht
    rcases hextends t ht with rfl | rfl
    · refine ⟨by simp [hbases], ?_⟩
      rw [hown]
      exact List.pairwise_pair.mpr fun hname => absurd hname (by decide)
    · exact ⟨by simp [habove], List.pairwise_singleton _ _⟩

def named : Structure where
  name := bytes "Named"
  properties := [{ name := bytes "name", type := .other }]

def labelled : Structure where
  name := bytes "Labelled"
  properties := [{ name := bytes "label", type := .other }]
  bases := [.reference (bytes "Named")]

/-- The mixin has a base. -/
def tagged : Structure where
  name := bytes "Tagged"
  properties := [{ name := bytes "tag", type := .other }]
  mixins := [.reference (bytes "Labelled")]

/-- The literal refines a property of the base's base. -/
def boxed : Structure where
  name := bytes "Boxed"
  properties := [{ name := bytes "name", type := .stringLiteral (bytes "box") }]
  bases := [.reference (bytes "Labelled")]

/-- The literal that refines a property is optional. -/
def stamped : Structure where
  name := bytes "Stamped"
  properties := [{ name := bytes "name", type := .stringLiteral (bytes "stamp"), isOptional := true }]
  bases := [.reference (bytes "Named")]

def shapes : MetaModel := .ofStructures [named, labelled, tagged, boxed, stamped]

theorem mem_of_shapes {name : Bytes} {s : Structure} (h : shapes.typeForName name = some (.structure s)) :
    s = named ∨ s = labelled ∨ s = tagged ∨ s = boxed ∨ s = stamped := by
  obtain ⟨s', hs', heq⟩ := Option.map_eq_some_iff.mp h
  cases heq
  simpa using List.mem_of_find?_eq_some hs'

theorem shapes_complete : shapes.Complete := by
  intro name s hs
  rcases mem_of_shapes hs with rfl | rfl | rfl | rfl | rfl
  all_goals exact ⟨_, rfl⟩

theorem shapes_acyclic : shapes.Acyclic := by
  refine ⟨fun name => if name = named.name then 0 else if name = labelled.name then 1 else 2, ?_⟩
  intro name s hs ref href b hb
  obtain rfl := shapes.name_eq name s hs
  rcases mem_of_shapes hs with rfl | rfl | rfl | rfl | rfl
  · cases href
  all_goals
    obtain rfl := List.mem_singleton.mp href
    cases hb
    decide

theorem shapes_covers_iff (s : Structure) (hs : shapes.Has s) :
    shapes.Covers s ↔ shapes.MixinsCopied s ∧ shapes.Refined s ∧ shapes.Distinct s :=
  MetaModel.covers_iff_shape shapes_acyclic shapes_complete hs

theorem hasKey_named {key : Bytes} : shapes.HasKey named key ↔ key = bytes "name" := by
  have hbases : shapes.basesOf named = [] := rfl
  have hmixins : shapes.mixinsOf named = [] := rfl
  rw [MetaModel.hasKey_iff, hbases, hmixins]
  simp [named, eq_comm]

theorem hasKey_labelled {key : Bytes} :
    shapes.HasKey labelled key ↔ key = bytes "label" ∨ key = bytes "name" := by
  have hbases : shapes.basesOf labelled = [named] := rfl
  have hmixins : shapes.mixinsOf labelled = [] := rfl
  rw [MetaModel.hasKey_iff, hbases, hmixins]
  simp [labelled, hasKey_named, eq_comm]

theorem namesApart_named : shapes.NamesApart named :=
  .intro (List.nodup_singleton _) .nil .nil (fun _ _ _ hm => absurd hm (List.not_mem_nil))
    (fun _ _ ⟨_, hb, _⟩ => absurd hb (List.not_mem_nil)) (fun _ ht => absurd ht (List.not_mem_nil))

theorem namesApart_labelled : shapes.NamesApart labelled := by
  have hbases : shapes.basesOf labelled = [named] := rfl
  have hmixins : shapes.mixinsOf labelled = [] := rfl
  refine .intro (List.nodup_singleton _) (List.pairwise_singleton _ _) .nil ?_ ?_ ?_
  · simp [hmixins]
  · rintro p hp ⟨b, hb, hk⟩
    obtain rfl : b = named := by simpa [hbases] using hb
    rcases hp with hp | ⟨m, hm, -⟩
    · obtain rfl := List.mem_singleton.mp hp
      exact absurd (hasKey_named.mp hk) (by decide)
    · simp [hmixins] at hm
  · simp [hbases, hmixins, namesApart_named]

theorem namesApart_tagged : shapes.NamesApart tagged := by
  have hbases : shapes.basesOf tagged = [] := rfl
  have hmixins : shapes.mixinsOf tagged = [labelled] := rfl
  refine .intro (List.nodup_singleton _) .nil (List.pairwise_singleton _ _) ?_ ?_ ?_
  · intro p hp m hm hk
    obtain rfl : m = labelled := by simpa [hmixins] using hm
    obtain rfl := List.mem_singleton.mp hp
    exact absurd (hasKey_labelled.mp hk) (by decide)
  · simp [hbases]
  · simp [hbases, hmixins, namesApart_labelled]

/-- A structure with one base and a literal for its only property. -/
theorem namesApart_literal {s b : Structure} {p : StructureProperty} (hproperties : s.properties = [p])
    (hbases : shapes.basesOf s = [b]) (hmixins : shapes.mixinsOf s = []) (hp : p.type.isLiteral = true)
    (hb : shapes.NamesApart b) : shapes.NamesApart s := by
  refine .intro ?_ ?_ ?_ ?_ ?_ ?_
  · simp [hproperties]
  · simp [hbases]
  · simp [hmixins]
  · simp [hmixins]
  · rintro q (hq | ⟨m, hm, -⟩) -
    · obtain rfl : q = p := by simpa [hproperties] using hq
      exact hp
    · simp [hmixins] at hm
  · simp [hbases, hmixins, hb]

theorem tagged_not_covered : ¬ shapes.Covers tagged := by
  intro h
  obtain ⟨hcopied, -⟩ := (shapes_covers_iff tagged rfl).mp h
  have hname := hcopied tagged .refl labelled (List.mem_singleton_self _) (bytes "name")
    (hasKey_labelled.mpr (.inr rfl))
  have hown : shapes.allProperties tagged = labelled.properties ++ tagged.properties := rfl
  have hbases : shapes.basesOf tagged = [] := rfl
  rw [MetaModel.emittedKey_iff, hown, hbases] at hname
  rcases hname with ⟨p, hp, hname⟩ | ⟨b, hb, -⟩
  · rcases List.mem_append.mp hp with hp | hp
    · obtain rfl := List.mem_singleton.mp hp
      exact absurd hname (by decide)
    · obtain rfl := List.mem_singleton.mp hp
      exact absurd hname (by decide)
  · cases hb

theorem boxed_not_covered : ¬ shapes.Covers boxed := by
  intro h
  obtain ⟨-, hrefined, -⟩ := (shapes_covers_iff boxed rfl).mp h
  have habove : shapes.EmittedKey named (bytes "name") :=
    MetaModel.emittedKey_iff.mpr (.inl ⟨_, List.mem_singleton_self _, rfl⟩)
  have hbase : shapes.EmittedKey labelled (bytes "name") :=
    MetaModel.emittedKey_iff.mpr (.inr ⟨named, List.mem_singleton_self _, habove⟩)
  obtain ⟨⟨-, hfirst⟩, -⟩ := hrefined boxed .refl _ (List.mem_singleton_self _)
    ⟨labelled, List.mem_singleton_self _, hbase⟩
  revert hfirst
  decide

theorem stamped_not_covered : ¬ shapes.Covers stamped := by
  intro h
  obtain ⟨-, hrefined, -⟩ := (shapes_covers_iff stamped rfl).mp h
  have hbase : shapes.EmittedKey named (bytes "name") :=
    MetaModel.emittedKey_iff.mpr (.inl ⟨_, List.mem_singleton_self _, rfl⟩)
  obtain ⟨-, hopt⟩ := hrefined stamped .refl _ (List.mem_singleton_self _)
    ⟨named, List.mem_singleton_self _, hbase⟩
  cases hopt

/-- Three structures with names that do not repeat: a mixin drops its base's key, and the refining literals
are treated a second time. -/
theorem shapes_not_covered :
    shapes.Acyclic ∧ shapes.Complete ∧ ∀ s ∈ [tagged, boxed, stamped],
      shapes.Has s ∧ shapes.NamesApart s ∧ ¬ shapes.Covers s := by
  refine ⟨shapes_acyclic, shapes_complete, ?_⟩
  intro s hs
  simp only [List.mem_cons, List.not_mem_nil, or_false] at hs
  rcases hs with rfl | rfl | rfl
  · exact ⟨rfl, namesApart_tagged, tagged_not_covered⟩
  · exact ⟨rfl, namesApart_literal rfl rfl rfl rfl namesApart_labelled, boxed_not_covered⟩
  · exact ⟨rfl, namesApart_literal rfl rfl rfl rfl namesApart_named, stamped_not_covered⟩

end Lsp.Lspgen
