import LspFramework.Lspgen.Coverage
import LspFramework.Lspgen.Outline

/-!
# lspgen: the functions of a structure and its declaration

`types.h` declares the members of a structure; the functions in `types.cpp` name them as `value.key`, also
those of bases.  C++ looks a member up in the class itself, and where it has no such member in all of its
bases; more than one is an error.

* `MetaModel.code`: the meta model as the functions are generated from it.
* `lookup`: the members that a name is looked up to.

Main result: `functions_fit` (what the functions name are members, and one each).
-/

namespace Lsp.Metamodel

open Chars Lsp.Json

/-! ## One meta model for both -/

/-- What the functions depend on of a type. -/
def MetaType.code : MetaType → Lspgen.PropertyType
  | .structureLiteral _ => .structureLiteral
  | .stringLiteral s => .stringLiteral s
  | .integerLiteral i => .integerLiteral i
  | .booleanLiteral b => .booleanLiteral b
  | _ => .other

def propertyCode (p : StructureProperty) : Lspgen.StructureProperty := ⟨p.name, p.type.code, p.isOptional⟩

def MetaType.refCode : MetaType → Lspgen.TypeRef
  | .reference name => .reference name
  | _ => .other

def Structure.code (s : Structure) : Lspgen.Structure where
  name := s.name
  properties := s.properties.map propertyCode
  bases := s.bases.map MetaType.refCode
  mixins := s.mixins.map MetaType.refCode

def NamedType.code : NamedType → Lspgen.NamedType
  | .structure s => .structure s.code
  | _ => .other

def MetaModel.code (M : MetaModel) : Lspgen.MetaModel where
  typeForName name := (M.typeForName name).map NamedType.code
  name_eq := by
    intro name s h
    obtain ⟨t, ht, hcode⟩ := Option.map_eq_some_iff.mp h
    cases t with
    | «structure» s' =>
      cases hcode
      exact (MetaModel.typeForName_eq_some_iff.mp ht).2
    | _ => cases hcode

section Code

variable (M : MetaModel)

@[simp] theorem isLiteral_code (t : MetaType) : t.code.isLiteral = t.isLiteral := by
  cases t <;> rfl

@[simp] theorem structureForRef_code (ref : MetaType) :
    M.code.structureForRef ref.refCode = (structureForRef M ref).map Structure.code := by
  cases ref with
  | reference name =>
    unfold structureForRef Lspgen.MetaModel.structureForRef MetaModel.code MetaType.refCode
    dsimp only
    cases M.typeForName name with
    | none => rfl
    | some t => cases t <;> rfl
  | _ => rfl

theorem filterMap_structureForRef_code (refs : List MetaType) :
    (refs.map MetaType.refCode).filterMap M.code.structureForRef =
      (refs.filterMap (structureForRef M)).map Structure.code := by
  rw [List.filterMap_map, List.map_filterMap]
  exact congrArg (fun f => refs.filterMap f) (funext fun ref => structureForRef_code M ref)

@[simp] theorem basesOf_code (s : Structure) : M.code.basesOf s.code = (basesOf M s).map Structure.code :=
  filterMap_structureForRef_code M s.bases

@[simp] theorem mixinsOf_code (s : Structure) : M.code.mixinsOf s.code = (mixinsOf M s).map Structure.code :=
  filterMap_structureForRef_code M s.mixins

/-- The properties that the members are declared for. -/
def allProperties (s : Structure) : List StructureProperty :=
  (mixinsOf M s).flatMap (·.properties) ++ s.properties

theorem allProperties_code (s : Structure) :
    M.code.allProperties s.code = (allProperties M s).map propertyCode := by
  rw [Lspgen.MetaModel.allProperties, mixinsOf_code, allProperties, List.map_append, List.map_flatMap,
    List.flatMap_map]
  rfl

theorem inheritedNames_code {s : Structure} (h : (NamedType.structure s).Resolved M) :
    M.code.inheritedNames s.code = inheritedNames M s := by
  unfold Lspgen.MetaModel.inheritedNames inheritedNames basesOf
  have hbases : s.code.bases = s.bases.map MetaType.refCode := rfl
  rw [hbases]
  cases hrefs : s.bases with
  | nil => rfl
  | cons ref refs =>
    obtain ⟨b, hb⟩ := h ref (List.mem_append_left _ (hrefs ▸ List.mem_cons_self))
    rw [List.map_cons, List.head?_cons, Option.bind_some, structureForRef_code, hb, List.filterMap_cons_some hb]
    show (b.properties.map propertyCode).map (·.name) = b.properties.map (·.name)
    rw [List.map_map]
    rfl

/-- Functions are generated where all bases and mixins are structures. -/
theorem exists_code {s : Structure} (h : (NamedType.structure s).Resolved M) :
    ∃ code, Lspgen.generate M.code s.code = .ok code := by
  have hbase : ∀ ref ∈ s.code.bases, ∀ code, ∃ r, Lspgen.generateBase M.code code ref = .ok r := by
    intro ref href code
    obtain ⟨ref', href', rfl⟩ := List.mem_map.mp href
    obtain ⟨b, hb⟩ := h ref' (List.mem_append_left _ href')
    rw [Lspgen.generateBase, structureForRef_code, hb]
    exact ⟨_, rfl⟩
  have hmixin : ∀ inherited, ∀ ref ∈ s.code.mixins, ∀ code,
      ∃ code', Lspgen.generateMixin M.code s.code.name inherited code ref = .ok code' := by
    intro inherited ref href code
    obtain ⟨ref', href', rfl⟩ := List.mem_map.mp href
    obtain ⟨m, hm⟩ := h ref' (List.mem_append_right _ href')
    obtain ⟨rfl, hfound⟩ := structureForRef_eq_some hm
    have hcode : M.code.typeForName m.name = some (.structure m.code) := congrArg (Option.map NamedType.code) hfound
    rw [MetaType.refCode, Lspgen.generateMixin, hcode]
    exact ⟨_, rfl⟩
  have hbases : ∃ r, Lspgen.generateBases M.code s.code.bases = .ok r := by
    cases hrefs : s.code.bases with
    | nil => exact ⟨_, rfl⟩
    | cons first rest =>
      rw [hrefs] at hbase
      obtain ⟨hfirst, hrest⟩ := List.forall_mem_cons.mp hbase
      obtain ⟨⟨code, base⟩, hcode⟩ := hfirst {}
      have hstep : ∀ ref ∈ rest, ∀ code, ∃ code',
          (Lspgen.generateBase M.code code ref).map Prod.fst = .ok code' := by
        intro ref href code
        obtain ⟨r, hr⟩ := hrest ref href code
        rw [hr]
        exact ⟨r.1, rfl⟩
      obtain ⟨code', hcode'⟩ := Fallible.exists_foldlM_ok hstep code
      exact ⟨_, Fallible.bind_eq_ok_iff.mpr ⟨_, hcode, Fallible.bind_eq_ok_iff.mpr ⟨code', hcode', rfl⟩⟩⟩
  obtain ⟨⟨code, inherited⟩, hcode⟩ := hbases
  obtain ⟨code', hcode'⟩ := Fallible.exists_foldlM_ok (hmixin inherited) code
  exact ⟨_, Fallible.bind_eq_ok_iff.mpr ⟨_, hcode, Fallible.bind_eq_ok_iff.mpr ⟨code', hcode', rfl⟩⟩⟩

end Code

/-! ## Looking up members -/

/-- The bases and members of a class. -/
def Outline.classOf (cls : Bytes) : Outline → Option (List Bytes × List (Bytes × Bool))
  | .structure cppName bases members => if cppName = cls then some (bases, members) else none
  | _ => none

def classFor (declared : List Outline) (cls : Bytes) : Option (List Bytes × List (Bytes × Bool)) :=
  declared.findSome? (·.classOf cls)

/-- The members that a name is looked up to in a class, with the classes they are members of. -/
def lookup (declared : List Outline) (key : Bytes) : Nat → Bytes → List (Bytes × Bool)
  | 0, _ => []
  | depth + 1, cls =>
    match classFor declared cls with
    | some (bases, members) =>
      let own := members.filter fun m => m.1 = key
      if own.isEmpty then bases.flatMap (lookup declared key depth) else own.map fun m => (cls, m.2)
    | none => []

theorem classOf_eq_none {d : Outline} {cls : Bytes} (h : cls ∉ d.declares) : d.classOf cls = none := by
  cases d with
  | «structure» cppName bases members => exact if_neg fun heq => h (List.mem_singleton.mpr heq.symm)
  | _ => rfl

theorem classFor_of_mem {declared : List Outline} (hnodup : (declared.flatMap Outline.declares).Nodup) {cls : Bytes}
    {bases : List Bytes} {members : List (Bytes × Bool)} (h : .structure cls bases members ∈ declared) :
    classFor declared cls = some (bases, members) := by
  have hself : (Outline.structure cls bases members).classOf cls = some (bases, members) := if_pos rfl
  induction declared with
  | nil => cases h
  | cons d ds ih =>
    rw [List.flatMap_cons] at hnodup
    obtain ⟨-, hds, hdisjoint⟩ := List.nodup_append.mp hnodup
    rw [classFor, List.findSome?_cons]
    rcases List.mem_cons.mp h with rfl | hmem
    · rw [hself]
    · have hcls : cls ∈ ds.flatMap Outline.declares := List.mem_flatMap.mpr ⟨_, hmem, List.mem_singleton_self _⟩
      rw [classOf_eq_none fun hd => hdisjoint cls hd cls hcls rfl]
      exact ih hds hmem

section Members

variable {M : MetaModel} {s : Structure}

theorem membersOf_append (inherited : List Bytes) (ps qs : List StructureProperty) :
    membersOf inherited (ps ++ qs) = membersOf inherited ps ++ membersOf inherited qs := by
  simp only [membersOf, List.filter_append, List.map_append]

theorem membersOf_flatMap (inherited : List Bytes) (mixins : List Structure) :
    membersOf inherited (mixins.flatMap (·.properties)) = mixins.flatMap fun m => membersOf inherited m.properties := by
  induction mixins with
  | nil => rfl
  | cons m ms ih => rw [List.flatMap_cons, List.flatMap_cons, membersOf_append, ih]

theorem outline_eq (M : MetaModel) (s : Structure) :
    s.outline M = .structure (upperCaseIdentifier s.name) ((basesOf M s).map (·.name))
      (membersOf (inheritedNames M s) (allProperties M s)) := by
  rw [Structure.outline, allProperties, membersOf_append, membersOf_flatMap]

theorem inheritedLiteral_code (hresolved : (NamedType.structure s).Resolved M) (p : StructureProperty) :
    M.code.InheritedLiteral s.code (propertyCode p) ↔
      (p.type.isLiteral && (inheritedNames M s).contains p.name) = true := by
  rw [← Lspgen.MetaModel.inheritedLiteral_iff, inheritedNames_code M hresolved]
  show (p.type.code.isLiteral && _) = true ↔ _
  rw [isLiteral_code]
  rfl

/-- What refines a base's member is not optional, so it is left out. -/
theorem not_optional_of_refined (hresolved : (NamedType.structure s).Resolved M) (hrefined : M.code.RefinedAt s.code)
    {p : StructureProperty} (hp : p ∈ allProperties M s)
    (hinh : (p.type.isLiteral && (inheritedNames M s).contains p.name) = true) : p.isOptional = false := by
  have hmem : propertyCode p ∈ M.code.allProperties s.code := by
    rw [allProperties_code]
    exact List.mem_map_of_mem hp
  have hleft := (inheritedLiteral_code hresolved p).mpr hinh
  exact (hrefined _ hmem (Lspgen.MetaModel.emittedKey_of_inheritedLiteral hleft)).2

theorem flatMap_readOf {inherited : List Bytes} {ps : List StructureProperty}
    (h : ∀ p ∈ ps, (p.type.isLiteral && inherited.contains p.name) = true → p.isOptional = false) :
    (ps.flatMap fun p => Lspgen.readOf inherited (propertyCode p)) = (membersOf inherited ps).map Prod.fst := by
  induction ps with
  | nil => rfl
  | cons p ps ih =>
    obtain ⟨hp, hps⟩ := List.forall_mem_cons.mp h
    have hread : Lspgen.readOf inherited (propertyCode p) =
        if !p.isOptional && (p.type.isLiteral && inherited.contains p.name) then [] else [p.name] := by
      rw [← isLiteral_code]
      rfl
    rw [List.flatMap_cons, ih hps, hread]
    unfold membersOf
    cases hinh : p.type.isLiteral && inherited.contains p.name with
    | true =>
      rw [hp hinh, List.filter_cons_of_neg (by rw [hinh]; decide)]
      rfl
    | false =>
      rw [Bool.and_false, List.filter_cons_of_pos (by rw [hinh]; rfl)]
      rfl

/-- The keys that the functions treat at the structure itself are its members. -/
theorem readOwn_code (hresolved : (NamedType.structure s).Resolved M) (hrefined : M.code.RefinedAt s.code) :
    M.code.readOwn s.code = (membersOf (inheritedNames M s) (allProperties M s)).map Prod.fst := by
  rw [Lspgen.MetaModel.readOwn, allProperties_code, inheritedNames_code M hresolved, List.flatMap_map]
  exact flatMap_readOf fun p hp => not_optional_of_refined hresolved hrefined hp

variable {declared : List Outline} {key : Bytes} {depth : Nat}

/-- The lookup in the class that is declared for a structure. -/
theorem lookup_structure (hnodup : (declared.flatMap Outline.declares).Nodup) (hs : s.outline M ∈ declared) :
    lookup declared key (depth + 1) (upperCaseIdentifier s.name) =
      let own := (membersOf (inheritedNames M s) (allProperties M s)).filter fun m => m.1 = key
      if own.isEmpty then (basesOf M s).flatMap fun b => lookup declared key depth b.name
      else own.map fun m => (upperCaseIdentifier s.name, m.2) := by
  rw [outline_eq] at hs
  rw [lookup, classFor_of_mem hnodup hs]
  dsimp only
  rw [List.flatMap_map]

/-- Of distinct members one has the name. -/
theorem filter_eq_singleton {members : List (Bytes × Bool)} (h : (members.map Prod.fst).Nodup) {m : Bytes × Bool}
    (hm : m ∈ members) : (members.filter fun m' => m'.1 = m.1) = [m] := by
  induction members with
  | nil => cases hm
  | cons m' ms ih =>
    rw [List.map_cons, List.nodup_cons] at h
    rcases List.mem_cons.mp hm with rfl | hmem
    · rw [List.filter_cons_of_pos (by simp), List.filter_eq_nil_iff.mpr]
      intro m' hm' heq
      exact h.1 (List.mem_map.mpr ⟨m', hm', of_decide_eq_true heq⟩)
    · have hne : m'.1 ≠ m.1 := fun heq => h.1 (List.mem_map.mpr ⟨m, hmem, heq.symm⟩)
      rw [List.filter_cons_of_neg (by simpa using hne)]
      exact ih h.2 hmem

/-- A member of the class itself hides those of the bases. -/
theorem lookup_own (hnodup : (declared.flatMap Outline.declares).Nodup) (hs : s.outline M ∈ declared)
    (hmembers : ((membersOf (inheritedNames M s) (allProperties M s)).map Prod.fst).Nodup) {m : Bytes × Bool}
    (hm : m ∈ membersOf (inheritedNames M s) (allProperties M s)) :
    lookup declared m.1 (depth + 1) (upperCaseIdentifier s.name) = [(upperCaseIdentifier s.name, m.2)] := by
  rw [lookup_structure hnodup hs]
  dsimp only
  rw [filter_eq_singleton hmembers hm]
  rfl

theorem lookup_bases (hnodup : (declared.flatMap Outline.declares).Nodup) (hs : s.outline M ∈ declared)
    (hkey : key ∉ (membersOf (inheritedNames M s) (allProperties M s)).map Prod.fst) :
    lookup declared key (depth + 1) (upperCaseIdentifier s.name) =
      (basesOf M s).flatMap fun b => lookup declared key depth b.name := by
  rw [lookup_structure hnodup hs]
  dsimp only
  rw [List.filter_eq_nil_iff.mpr]
  · rfl
  · intro m hm heq
    exact hkey (List.mem_map.mpr ⟨m, hm, of_decide_eq_true heq⟩)

end Members

/-! ## Structures in layers -/

section Layered

variable {M : MetaModel} {rank : Bytes → Nat}

theorem has_code {a : Lspgen.Structure} (h : M.code.Has a) :
    ∃ s, M.typeForName s.name = some (.structure s) ∧ a = s.code := by
  obtain ⟨t, ht, hcode⟩ := Option.map_eq_some_iff.mp h
  cases t with
  | «structure» s =>
    cases hcode
    exact ⟨s, ht, rfl⟩
  | _ => cases hcode

theorem code_has {s : Structure} (h : M.typeForName s.name = some (.structure s)) : M.code.Has s.code := by
  show (M.typeForName s.name).map NamedType.code = _
  rw [h]
  rfl

theorem MetaModel.Layered.resolved (hM : M.Layered rank) {s : Structure}
    (hs : M.typeForName s.name = some (.structure s)) : (NamedType.structure s).Resolved M := by
  intro ref href
  obtain ⟨b, hb, -⟩ := (hM.structures s hs).2.1 ref href
  exact ⟨b, hb⟩

/-- A base is registered, below, and of a name that the header does not change. -/
theorem MetaModel.Layered.below (hM : M.Layered rank) {s : Structure} (hs : M.typeForName s.name = some (.structure s))
    {ref : MetaType} (href : ref ∈ s.bases ++ s.mixins) {b : Structure} (hb : structureForRef M ref = some b) :
    M.typeForName b.name = some (.structure b) ∧ rank b.name < rank s.name ∧ upperCaseIdentifier b.name = b.name := by
  obtain ⟨b', hb', hbelow, hbuiltIn, hstable⟩ := (hM.structures s hs).2.1 ref href
  obtain rfl : b' = b := Option.some.inj (hb'.symm.trans hb)
  exact ⟨(structureForRef_eq_some hb).2, hbelow.resolve_left hbuiltIn, upperCaseIdentifier_of_stable hstable⟩

theorem MetaModel.Layered.code_acyclic (hM : M.Layered rank) : M.code.Acyclic := by
  refine ⟨rank, fun name a ha ref href b hb => ?_⟩
  obtain rfl := M.code.name_eq name a ha
  obtain ⟨s, hs, rfl⟩ := has_code ha
  have hrefs : s.code.bases ++ s.code.mixins = (s.bases ++ s.mixins).map MetaType.refCode := by
    rw [List.map_append]
    rfl
  rw [hrefs] at href
  obtain ⟨ref', href', rfl⟩ := List.mem_map.mp href
  rw [structureForRef_code] at hb
  obtain ⟨b', hb', rfl⟩ := Option.map_eq_some_iff.mp hb
  exact (hM.below hs href' hb').2.1

theorem bounded_code (hM : M.Layered rank) {s : Structure} (hs : M.typeForName s.name = some (.structure s))
    {depth : Nat} (hdepth : rank s.name < depth) :
    Inheritance.Bounded M.code.basesOf depth s.code := by
  refine .of_rank (fun a => rank a.name) (p := M.code.Has) (fun a ha b hb => ?_) (code_has hs) hdepth
  refine ⟨Lspgen.MetaModel.has_of_mem_basesOf hb, ?_⟩
  obtain ⟨s, hs, rfl⟩ := has_code ha
  rw [basesOf_code] at hb
  obtain ⟨b', hb', rfl⟩ := List.mem_map.mp hb
  obtain ⟨ref, href, hb'⟩ := List.mem_filterMap.mp hb'
  exact (hM.below hs (List.mem_append_left _ href) hb').2.1

/-- A registered structure is among what the meta model gives rise to. -/
theorem outline_mem (hM : M.Layered rank) {s : Structure} (hs : M.typeForName s.name = some (.structure s)) :
    s.outline M ∈ M.outlines := by
  refine List.mem_flatMap.mpr ⟨.structure s, List.mem_filter.mpr ⟨?_, ?_⟩, ?_⟩
  · exact (MetaModel.typeForName_eq_some_iff.mp hs).1
  · have hbuiltIn : s.name ∉ builtIn := (hM.structures s hs).1
    simpa [NamedType.name] using hbuiltIn
  · exact List.mem_append_right _ (List.mem_singleton_self _)

/-- What a structure and its bases must be like for the lookup. -/
structure Shaped (M : MetaModel) (a : Lspgen.Structure) : Prop where
  has : M.code.Has a
  refined : M.code.Refined a
  distinct : M.code.Distinct a

theorem Shaped.base {a b : Lspgen.Structure} (h : Shaped M a) (hb : b ∈ M.code.basesOf a) : Shaped M b where
  has := Lspgen.MetaModel.has_of_mem_basesOf hb
  refined := (Inheritance.forall_reaches_iff.mp h.refined).2 b hb
  distinct := (Inheritance.forall_reaches_iff.mp h.distinct).2 b hb

theorem Shaped.apart (hM : M.Layered rank) {a : Lspgen.Structure} (h : Shaped M a) :
    Inheritance.Apart M.code.basesOf M.code.readOwn a := by
  obtain ⟨depth, hdepth⟩ := Lspgen.MetaModel.exists_bounded hM.code_acyclic h.has
  exact (Lspgen.MetaModel.apart_iff hdepth).mpr ⟨h.refined a .refl, h.distinct a .refl⟩

variable {declared : List Outline}

/-- **Each key of a structure is looked up to one member**, and no other name is. -/
theorem lookup_key (hM : M.Layered rank) (hnodup : (declared.flatMap Outline.declares).Nodup)
    (hdeclared : ∀ s, M.typeForName s.name = some (.structure s) → s.outline M ∈ declared) {s : Structure}
    (hs : M.typeForName s.name = some (.structure s)) (hshaped : Shaped M s.code) {depth : Nat}
    (hdepth : rank s.name < depth) (key : Bytes) :
    (M.code.EmittedKey s.code key → ∃ m, lookup declared key depth (upperCaseIdentifier s.name) = [m]) ∧
      (¬ M.code.EmittedKey s.code key → lookup declared key depth (upperCaseIdentifier s.name) = []) := by
  have hbounded := bounded_code hM hs hdepth
  rw [← Lspgen.MetaModel.has_readOwn_iff hbounded]
  refine Inheritance.lookup_unique (p := Shaped M)
    (f := fun depth a => lookup declared key depth (upperCaseIdentifier a.name)) (fun a ha b hb => ha.base hb)
    (fun a ha => (ha.apart hM).parents_apart.imp fun h => h key) ?_ ?_ hbounded hshaped
  · intro depth a ha hkey
    obtain ⟨t, ht, rfl⟩ := has_code ha.has
    have hown := readOwn_code (hM.resolved ht) (ha.refined _ .refl)
    rw [hown] at hkey
    obtain ⟨m, hm, rfl⟩ := List.mem_map.mp hkey
    exact ⟨_, lookup_own hnodup (hdeclared t ht) (hown ▸ (ha.apart hM).own_nodup) hm⟩
  · intro depth a ha hkey
    obtain ⟨t, ht, rfl⟩ := has_code ha.has
    rw [readOwn_code (hM.resolved ht) (ha.refined _ .refl)] at hkey
    rw [basesOf_code, List.flatMap_map]
    refine (lookup_bases hnodup (hdeclared t ht) hkey).trans (List.flatMap_congr fun b hb => ?_)
    obtain ⟨ref, href, hb⟩ := List.mem_filterMap.mp hb
    have hname := (hM.below ht (List.mem_append_left _ href) hb).2.2
    show lookup declared key depth b.name = lookup declared key depth (upperCaseIdentifier b.name)
    rw [hname]

/-- The member in `value.key`. -/
def toJsonMember : Lspgen.ToJsonLine → Option Bytes
  | .base _ => none
  | .ifValue key => some key
  | .assign key => some key

def fromJsonMember : Lspgen.FromJsonLine → Option Bytes
  | .base _ => none
  | .ifFind key => some key
  | .get key => some key
  | .returnUnless key _ => some key

theorem toJsonMember_of_mem {inherited : List Bytes} {p : Lspgen.StructureProperty} {line : Lspgen.ToJsonLine}
    (h : line ∈ Lspgen.toJsonLines inherited p) :
    toJsonMember line = some p.name ∧ ∀ key, line = .ifValue key → p.isOptional = true := by
  unfold Lspgen.toJsonLines at h
  rcases List.mem_append.mp h with h | h
  · split at h
    · next hopt =>
      rw [List.mem_singleton.mp h]
      exact ⟨rfl, fun _ _ => hopt⟩
    · cases h
  · split at h
    · cases h
    · rw [List.mem_singleton.mp h]
      exact ⟨rfl, fun _ heq => by cases heq⟩

theorem fromJsonMember_of_mem {inherited : List Bytes} {p : Lspgen.StructureProperty} {line : Lspgen.FromJsonLine}
    (h : line ∈ Lspgen.fromJsonLines inherited p) : fromJsonMember line = some p.name := by
  unfold Lspgen.fromJsonLines at h
  rcases List.mem_append.mp h with h | h
  · split at h
    · rw [List.mem_singleton.mp h]
      rfl
    · split at h
      · cases h
      · rw [List.mem_singleton.mp h]
        rfl
  · split at h
    · rw [List.mem_singleton.mp h]
      rfl
    · cases h

/-- The member of an optional property is an optional of the class itself. -/
theorem lookup_optional (hM : M.Layered rank) (hnodup : (declared.flatMap Outline.declares).Nodup) {s : Structure}
    (hs : M.typeForName s.name = some (.structure s)) (hdeclared : s.outline M ∈ declared) (hshaped : Shaped M s.code)
    {p : Lspgen.StructureProperty} (hp : p ∈ M.code.allProperties s.code) (hopt : p.isOptional = true) (depth : Nat) :
    lookup declared p.name (depth + 1) (upperCaseIdentifier s.name) = [(upperCaseIdentifier s.name, true)] := by
  have hresolved := hM.resolved hs
  have hrefined := hshaped.refined _ .refl
  rw [allProperties_code] at hp
  obtain ⟨q, hq, rfl⟩ := List.mem_map.mp hp
  have hq_opt : q.isOptional = true := hopt
  have hkept : (!(q.type.isLiteral && (inheritedNames M s).contains q.name)) = true := by
    rw [Bool.not_eq_true']
    by_contra hinh
    have := not_optional_of_refined hresolved hrefined hq (Bool.eq_true_of_not_eq_false hinh)
    rw [hq_opt] at this
    cases this
  have hm : (q.name, q.isOptional) ∈ membersOf (inheritedNames M s) (allProperties M s) :=
    List.mem_map.mpr ⟨q, List.mem_filter.mpr ⟨hq, hkept⟩, rfl⟩
  have hmembers := (hshaped.apart hM).own_nodup
  rw [readOwn_code hresolved hrefined] at hmembers
  rw [hq_opt] at hm
  exact lookup_own hnodup hdeclared hmembers hm

end Layered

/-- **The functions of a structure fit its declaration.**  Where the header defines no name twice, and the
structure has the shape that its functions cover: `ToJson` and `FromJson` call the functions of the bases that
the class is declared with, every member that they name is looked up to one member of the class or of a base,
and a member that is tested for a value is an optional. -/
theorem functions_fit (M : MetaModel) (rank : Bytes → Nat) (fuel : Nat) (hM : M.Layered rank)
    (hfuel : ∀ name ∈ M.typeNames, rank name + 1 < fuel) (hnames : (M.outlines.flatMap Outline.declares).Nodup)
    (s : Structure) (hs : M.typeForName s.name = some (.structure s)) (hrefined : M.code.Refined s.code)
    (hdistinct : M.code.Distinct s.code) :
    ∃ g code bases members, generateTypes M fuel = some g ∧ Lspgen.generate M.code s.code = .ok code ∧
      let header := g.m_typesHeaderFileContent.map Declaration.outline
      let cls := upperCaseIdentifier s.name
      classFor header cls = some (bases, members) ∧
      (∀ name, .base name ∈ code.toJson ↔ name ∈ bases) ∧ (∀ name, .base name ∈ code.fromJson ↔ name ∈ bases) ∧
      ∀ depth, rank s.name < depth →
        (∀ line ∈ code.toJson, ∀ key, toJsonMember line = some key →
          ∃ m, lookup header key depth cls = [m] ∧ (line = .ifValue key → m.2 = true)) ∧
        ∀ line ∈ code.fromJson, ∀ key, fromJsonMember line = some key → ∃ m, lookup header key depth cls = [m] := by
  obtain ⟨g, hg, -⟩ := generateTypes_leads hM hfuel
  obtain ⟨code, hcode⟩ := exists_code M (hM.resolved hs)
  have hperm := generateTypes_outlines hg
  have hnodup := (hperm.flatMap_right Outline.declares).nodup_iff.mpr hnames
  have hdeclared : ∀ t, M.typeForName t.name = some (.structure t) →
      t.outline M ∈ g.m_typesHeaderFileContent.map Declaration.outline := fun t ht =>
    hperm.mem_iff.mpr (outline_mem hM ht)
  have hshaped : Shaped M s.code := ⟨code_has hs, hrefined, hdistinct⟩
  have hcls := classFor_of_mem hnodup (outline_eq M s ▸ hdeclared s hs)
  have hbases : ∀ name, name ∈ (basesOf M s).map (·.name) ↔ ∃ b ∈ M.code.basesOf s.code, b.name = name := by
    intro name
    rw [basesOf_code, List.mem_map]
    simp [Structure.code]
  refine ⟨g, code, _, _, hg, hcode, hcls, fun name => ?_, fun name => ?_, fun depth hdepth => ⟨?_, ?_⟩⟩
  · rw [Lspgen.generate_toJson hcode, hbases, List.mem_append, List.mem_map]
    refine (or_iff_left ?_).trans (by simp)
    intro h
    obtain ⟨p, -, hp⟩ := List.mem_flatMap.mp h
    cases (toJsonMember_of_mem hp).1
  · rw [Lspgen.base_mem_fromJson hcode, hbases]
  · intro line hline key hkey
    rw [Lspgen.generate_toJson hcode] at hline
    rcases List.mem_append.mp hline with hline | hline
    · obtain ⟨b, -, rfl⟩ := List.mem_map.mp hline
      cases hkey
    · obtain ⟨p, hp, hline⟩ := List.mem_flatMap.mp hline
      obtain ⟨hmember, hopt⟩ := toJsonMember_of_mem hline
      obtain rfl : p.name = key := Option.some.inj (hmember.symm.trans hkey)
      have hemitted : M.code.EmittedKey s.code p.name := Lspgen.MetaModel.emittedKey_iff.mpr (.inl ⟨p, hp, rfl⟩)
      obtain ⟨m, hm⟩ := (lookup_key hM hnodup hdeclared hs hshaped hdepth p.name).1 hemitted
      refine ⟨m, hm, fun hif => ?_⟩
      obtain ⟨depth, rfl⟩ : ∃ n, depth = n + 1 := ⟨depth - 1, by omega⟩
      rw [lookup_optional hM hnodup hs (hdeclared s hs) hshaped hp (hopt _ hif) depth] at hm
      rw [← List.singleton_inj.mp hm]
  · intro line hline key hkey
    rw [Lspgen.generate_fromJson hcode] at hline
    rcases List.mem_append.mp hline with hline | hline
    · obtain ⟨b, -, rfl⟩ := List.mem_map.mp hline
      cases hkey
    · obtain ⟨p, hp, hline⟩ := List.mem_flatMap.mp hline
      obtain rfl : p.name = key := Option.some.inj ((fromJsonMember_of_mem hline).symm.trans hkey)
      have hemitted : M.code.EmittedKey s.code p.name := Lspgen.MetaModel.emittedKey_iff.mpr (.inl ⟨p, hp, rfl⟩)
      exact (lookup_key hM hnodup hdeclared hs hshaped hdepth p.name).1 hemitted

theorem symbol_shape : symbolModel.code.Refined symbol.code ∧ symbolModel.code.Distinct symbol.code := by
  have hbases : symbolModel.code.basesOf symbol.code = [named.code] := rfl
  have habove : symbolModel.code.basesOf named.code = [] := rfl
  have hkey : ∀ key, symbolModel.code.EmittedKey named.code key → key = bytes "name" := by
    intro key hk
    rcases Lspgen.MetaModel.emittedKey_iff.mp hk with ⟨p, hp, rfl⟩ | ⟨b, hb, -⟩
    · obtain rfl := List.mem_singleton.mp hp
      rfl
    · rw [habove] at hb
      cases hb
  have hextends : ∀ t, symbolModel.code.Extends symbol.code t → t = symbol.code ∨ t = named.code := by
    intro t ht
    rcases Inheritance.reaches_iff.mp ht with rfl | ⟨b, hb, hbt⟩
    · exact .inl rfl
    · rw [hbases, List.mem_singleton] at hb
      subst hb
      rcases Inheritance.reaches_iff.mp hbt with rfl | ⟨c, hc, -⟩
      · exact .inr rfl
      · rw [habove] at hc
        cases hc
  have hnames : ∀ p ∈ symbolModel.code.allProperties symbol.code, p.name ≠ bytes "name" := by decide +kernel
  constructor
  · rintro t ht p hp ⟨b, hb, hk⟩
    rcases hextends t ht with rfl | rfl
    · rw [hbases, List.mem_singleton] at hb
      subst hb
      exact absurd (hkey _ hk) (hnames p hp)
    · rw [habove] at hb
      cases hb
  · intro t ht
    rcases hextends t ht with rfl | rfl
    · refine ⟨by rw [hbases]; exact List.pairwise_singleton _ _, ?_⟩
      have hdistinct : (symbolModel.code.allProperties symbol.code).Pairwise fun p q => p.name ≠ q.name := by
        decide +kernel
      exact hdistinct.imp fun hne hname => absurd hname hne
    · exact ⟨by rw [habove]; exact .nil, List.pairwise_singleton _ _⟩

theorem symbol_functions_fit :
    ∃ g code bases members, generateTypes symbolModel 4 = some g ∧
      Lspgen.generate symbolModel.code symbol.code = .ok code ∧
      classFor (g.m_typesHeaderFileContent.map Declaration.outline) (bytes "Symbol") = some (bases, members) ∧
      ∀ line ∈ code.fromJson, ∀ key, fromJsonMember line = some key →
        ∃ m, lookup (g.m_typesHeaderFileContent.map Declaration.outline) key 2 (bytes "Symbol") = [m] := by
  obtain ⟨hrefined, hdistinct⟩ := symbol_shape
  obtain ⟨g, code, bases, members, hg, hcode, hcls, -, -, hlookup⟩ :=
    functions_fit symbolModel symbolRank 4 symbolModel_layered (by decide +kernel) (by decide +kernel) symbol rfl
      hrefined hdistinct
  exact ⟨g, code, bases, members, hg, hcode, hcls, (hlookup 2 (by decide +kernel)).2⟩

end Lsp.Metamodel
