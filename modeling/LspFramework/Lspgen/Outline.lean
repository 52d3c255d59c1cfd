import LspFramework.Lib.Fallible
import LspFramework.Lib.Visits
import LspFramework.Lspgen.DeclarationOrder

/-!
# lspgen: what the header declares

The generator reaches a type from many others, and a structure literal has no name of its own.  What comes
out is still determined type by type: each registered type is generated once, with the structure literals
that are written in it.

* `Outline`: a declaration without the types of its members.
* `NamedType.outlines`: what a registered type gives rise to.

Main result: `declared_once` (the header declares what the types of the meta model give rise to, each once).
-/

namespace Lsp.Metamodel

open Chars Lsp.Json

/-! ## Outlines -/

inductive Outline where
  | enumeration (cppName : Bytes)
  /-- A member is optional where its type is `Opt` or `std::unique_ptr`. -/
  | structure (cppName : Bytes) (bases : List Bytes) (members : List (Bytes × Bool))
  | typeAlias (cppName : Bytes)
  deriving DecidableEq, Repr

def CppType.isOptional : CppType → Bool
  | .name _ => false
  | .template n _ => n = bytes "Opt" || n = bytes "std::unique_ptr"

def Declaration.outline : Declaration → Outline
  | .enumeration cppName _ _ => .enumeration cppName
  | .structure cppName bases members => .structure cppName bases (members.map fun m => (m.2, m.1.isOptional))
  | .typeAlias cppName _ => .typeAlias cppName

def Outline.declares : Outline → List Bytes
  | .enumeration cppName => [cppName, cppName ++ bytes "Enum"]
  | .structure cppName _ _ => [cppName]
  | .typeAlias cppName => [cppName]

theorem declares_outline (d : Declaration) : d.outline.declares = d.declares := by
  cases d <;> rfl

section Outlines

variable (M : MetaModel)

/-- The members that `membersFor` gives, without their types. -/
def membersOf (basePropertiesByName : List Bytes) (properties : List StructureProperty) : List (Bytes × Bool) :=
  (properties.filter fun p => !(p.type.isLiteral && basePropertiesByName.contains p.name)).map fun p =>
    (p.name, p.isOptional)

def basesOf (s : Structure) : List Structure := s.bases.filterMap (structureForRef M)

def mixinsOf (s : Structure) : List Structure := s.mixins.filterMap (structureForRef M)

/-- The names of the properties of the first base. -/
def inheritedNames (s : Structure) : List Bytes :=
  (((basesOf M s).head?).map fun b => b.properties.map (·.name)).getD []

def Structure.outline (s : Structure) : Outline :=
  .structure (upperCaseIdentifier s.name) ((basesOf M s).map (·.name))
    ((mixinsOf M s).flatMap (fun m => membersOf (inheritedNames M s) m.properties) ++
      membersOf (inheritedNames M s) s.properties)

mutual

/-- The structure literals that are written in a type. -/
def MetaType.outlines (baseName : Bytes) (isAlias : Bool) : MetaType → List Outline
  | .reference _ => []
  | .array elementType => elementType.outlines baseName false
  | .map keyType valueType => keyType.outlines baseName false ++ valueType.outlines baseName false
  | .and typeList => outlinesOfTypes (if isAlias then baseName ++ bytes "_Base" else baseName) typeList
  | .or typeList => outlinesOfTypes baseName typeList
  | .tuple typeList => outlinesOfTypes (if isAlias then baseName ++ bytes "_Element" else baseName) typeList
  | .structureLiteral properties =>
    outlinesOfProperties (upperCaseIdentifier baseName) properties ++
      [Structure.outline M { name := baseName, properties }]
  | .base _ => []
  | .stringLiteral _ => []
  | .integerLiteral _ => []
  | .booleanLiteral _ => []

def outlinesOfTypes (baseName : Bytes) : List MetaType → List Outline
  | [] => []
  | t :: ts => t.outlines (baseName ++ t.nameSuffix) false ++ outlinesOfTypes baseName ts

def outlinesOfProperties (structureCppName : Bytes) : List StructureProperty → List Outline
  | [] => []
  | p :: ps => outlinesOfProperty structureCppName p ++ outlinesOfProperties structureCppName ps

def outlinesOfProperty (structureCppName : Bytes) : StructureProperty → List Outline
  | ⟨name, type, _, _⟩ => type.outlines (structureCppName ++ capitalizeString name) false

end

def NamedType.outlines : NamedType → List Outline
  | .enumeration e =>
    match e.type with
    | .base _ => [.enumeration (upperCaseIdentifier e.name)]
    | _ => []
  | .structure s =>
    (s.bases ++ s.mixins).flatMap (·.outlines M [] false) ++
      outlinesOfProperties M (upperCaseIdentifier s.name) s.properties ++ [s.outline M]
  | .typeAlias a => a.type.outlines M (upperCaseIdentifier a.name) true ++ [.typeAlias (upperCaseIdentifier a.name)]

/-- What the header declares of all types: the built-in ones are not generated. -/
def MetaModel.outlines : List Outline :=
  (M.types.filter fun t => !builtIn.contains t.name).flatMap (·.outlines M)

end Outlines

/-! ## The declaration of a structure -/

section Structures

variable {M : MetaModel} {fuel : Nat}

theorem isOptional_orTemplate (typeList : List MetaType) (args : List CppType) :
    (orTemplate typeList args).isOptional = false := by
  unfold orTemplate
  split
  · rfl
  · split <;> rfl

mutual

/-- No type of the meta model is an optional itself. -/
theorem isOptional_cppTypeName : (t : MetaType) → (baseName : Bytes) → (isAlias : Bool) → (c : CppType) →
    cppTypeName M fuel baseName isAlias t = some c → c.isOptional = false
  | .base kind, _, _, c, h => by
    cases h
    rfl
  | .reference name, _, _, c, h => by
    obtain ⟨n, -, rfl⟩ := Option.map_eq_some_iff.mp h
    rfl
  | .array t, _, _, c, h => by
    rw [cppTypeName] at h
    split at h
    · cases h
      rfl
    · obtain ⟨e, -, rfl⟩ := Option.map_eq_some_iff.mp h
      rfl
  | .map k v, _, _, c, h => by
    rw [cppTypeName] at h
    obtain ⟨b, -, h⟩ := Option.bind_eq_some_iff.mp h
    obtain ⟨key, -, h⟩ := Option.bind_eq_some_iff.mp h
    obtain ⟨value, -, h⟩ := Option.bind_eq_some_iff.mp h
    cases h
    cases b <;> rfl
  | .and _, _, _, c, h => by
    cases h
    rfl
  | .or ts, baseName, _, c, h => by
    rw [cppTypeName] at h
    obtain ⟨args, hargs, h⟩ := Option.bind_eq_some_iff.mp h
    split at h
    · cases h
    · exact isOptional_cppTypeNames _ baseName args hargs c (List.mem_of_head? h)
    · cases h
      exact isOptional_orTemplate _ _
  | .tuple ts, _, _, c, h => by
    rw [cppTypeName] at h
    obtain ⟨args, -, rfl⟩ := Option.map_eq_some_iff.mp h
    rfl
  | .structureLiteral _, _, _, c, h => by
    cases h
    rfl
  | .stringLiteral _, _, _, c, h => by
    cases h
    rfl
  | .integerLiteral _, _, _, c, h => by
    cases h
    rfl
  | .booleanLiteral _, _, _, c, h => by
    cases h
    rfl

theorem isOptional_cppTypeNames : (ts : List MetaType) → (baseName : Bytes) → (cs : List CppType) →
    cppTypeNames M fuel baseName ts = some cs → ∀ c ∈ cs, c.isOptional = false
  | [], _, _, h => by
    cases h
    exact List.forall_mem_nil _
  | t :: ts, baseName, _, h => by
    rw [cppTypeNames] at h
    obtain ⟨c, hc, h⟩ := Option.bind_eq_some_iff.mp h
    obtain ⟨cs, hcs, h⟩ := Option.bind_eq_some_iff.mp h
    cases h
    exact List.forall_mem_cons.mpr ⟨isOptional_cppTypeName t _ _ c hc, isOptional_cppTypeNames ts baseName cs hcs⟩

end

theorem outline_memberFor {typesBeingProcessed : List Bytes} {cppName : Bytes} {p : StructureProperty}
    {m : CppType × Bytes} (h : memberFor M fuel typesBeingProcessed cppName p = some m) :
    (m.2, m.1.isOptional) = (p.name, p.isOptional) := by
  unfold memberFor at h
  obtain ⟨c, hc, h⟩ := Option.bind_eq_some_iff.mp h
  cases h
  cases hopt : p.isOptional with
  | false => exact Prod.ext rfl (isOptional_cppTypeName p.type _ _ c hc)
  | true =>
    refine Prod.ext rfl ?_
    show (CppType.template (optionalTemplate typesBeingProcessed p.type) [c]).isOptional = true
    unfold optionalTemplate
    split
    · split <;> rfl
    · rfl

theorem outline_membersFor {typesBeingProcessed inherited : List Bytes} {cppName : Bytes}
    {properties : List StructureProperty} {members : List (CppType × Bytes)}
    (h : membersFor M fuel typesBeingProcessed inherited cppName properties = some members) :
    (members.map fun m => (m.2, m.1.isOptional)) = membersOf inherited properties :=
  Fallible.map_of_mapM h fun _ _ => outline_memberFor

/-- All bases and mixins are structures. -/
def NamedType.Resolved (M : MetaModel) : NamedType → Prop
  | .structure s => ∀ ref ∈ s.bases ++ s.mixins, ∃ b, structureForRef M ref = some b
  | _ => True

theorem structureDeclaration_outline {typesBeingProcessed : List Bytes} {s : Structure} {d : Declaration}
    (h : structureDeclaration M fuel typesBeingProcessed s = some d) :
    d.outline = s.outline M ∧ (NamedType.structure s).Resolved M := by
  unfold structureDeclaration at h
  obtain ⟨bases, hbases, h⟩ := Option.bind_eq_some_iff.mp h
  obtain ⟨mixins, hmixins, h⟩ := Option.bind_eq_some_iff.mp h
  obtain ⟨mixedIn, hmixedIn, h⟩ := Option.bind_eq_some_iff.mp h
  obtain ⟨own, hown, h⟩ := Option.bind_eq_some_iff.mp h
  cases h
  have hbasesOf : basesOf M s = bases := Fallible.filterMap_of_mapM hbases
  have hmixinsOf : mixinsOf M s = mixins := Fallible.filterMap_of_mapM hmixins
  constructor
  · have hmixed := Fallible.map_of_mapM hmixedIn fun _ _ => outline_membersFor
    rw [Declaration.outline, Structure.outline, inheritedNames, hbasesOf, hmixinsOf, List.map_append, List.map_flatten,
      hmixed, outline_membersFor hown, ← List.flatMap_def]
  · intro ref href
    rcases List.mem_append.mp href with href | href
    · obtain ⟨b, -, hb⟩ := Fallible.mem_mapM hbases href
      exact ⟨b, hb⟩
    · obtain ⟨m, -, hm⟩ := Fallible.mem_mapM hmixins href
      exact ⟨m, hm⟩

end Structures

/-! ## The traversal -/

section Generator

variable {M : MetaModel} {fuel : Nat} {named : Bytes → CppGenerator → Option CppGenerator} {g g' : CppGenerator}

def CppGenerator.state (g : CppGenerator) : Visits.State Bytes Outline :=
  ⟨g.m_processedTypes, g.m_typesHeaderFileContent.map Declaration.outline⟩

def outlinesFor (M : MetaModel) (name : Bytes) : List Outline :=
  ((M.typeForName name).map (·.outlines M)).getD []

def Found (M : MetaModel) (name : Bytes) : Prop := ∃ t, M.typeForName name = some t ∧ t.Resolved M

/-- Registered types are generated that were not, and declarations are written besides. -/
abbrev Goes (M : MetaModel) (g g' : CppGenerator) (extra : List Outline) : Prop :=
  Visits.Goes (outlinesFor M) (Found M) g.state g'.state extra

theorem goes_declare (g : CppGenerator) (d : Declaration) : Goes M g (g.declare d) [d.outline] := by
  have hstate : (g.declare d).state = ⟨g.state.visited, g.state.emitted ++ [d.outline]⟩ := by
    simp [CppGenerator.state, CppGenerator.declare]
  rw [Goes, hstate]
  exact .emit _ _

theorem declareStructure_goes {s : Structure} (h : declareStructure M fuel s g = some g') :
    Goes M g g' [s.outline M] ∧ (NamedType.structure s).Resolved M := by
  obtain ⟨d, hd, rfl⟩ := Option.map_eq_some_iff.mp h
  obtain ⟨houtline, hresolved⟩ := structureDeclaration_outline hd
  rw [← houtline]
  exact ⟨goes_declare g d, hresolved⟩

mutual

/-- **A type gives rise to its structure literals**, besides what the types that it refers to do. -/
theorem generateType_goes (h : ∀ name g g', named name g = some g' → Goes M g g' []) : (t : MetaType) →
    (baseName : Bytes) → (isAlias : Bool) → (g g' : CppGenerator) →
    generateType M fuel named baseName isAlias t g = some g' → Goes M g g' (t.outlines M baseName isAlias)
  | .reference name, _, _, g, g', hg => h name g g' hg
  | .array t, baseName, _, g, g', hg => generateType_goes h t baseName false g g' hg
  | .map k v, baseName, _, g, g', hg => by
    obtain ⟨g₁, hk, hv⟩ := Option.bind_eq_some_iff.mp hg
    exact (generateType_goes h k baseName false g g₁ hk).trans (generateType_goes h v baseName false g₁ g' hv)
  | .and ts, _, _, g, g', hg => generateAggregateTypeList_goes h ts _ g g' hg
  | .or ts, baseName, _, g, g', hg => generateAggregateTypeList_goes h ts baseName g g' hg
  | .tuple ts, _, _, g, g', hg => generateAggregateTypeList_goes h ts _ g g' hg
  | .structureLiteral ps, _, _, g, g', hg => by
    obtain ⟨g₁, hps, hs⟩ := Option.bind_eq_some_iff.mp hg
    exact (generateTypesOf_goes h ps _ g g₁ hps).trans (declareStructure_goes hs).1
  | .base _, _, _, g, _, hg => by
    cases hg
    exact .stay g.state
  | .stringLiteral _, _, _, g, _, hg => by
    cases hg
    exact .stay g.state
  | .integerLiteral _, _, _, g, _, hg => by
    cases hg
    exact .stay g.state
  | .booleanLiteral _, _, _, g, _, hg => by
    cases hg
    exact .stay g.state

theorem generateAggregateTypeList_goes (h : ∀ name g g', named name g = some g' → Goes M g g' []) :
    (ts : List MetaType) → (baseName : Bytes) → (g g' : CppGenerator) →
    generateAggregateTypeList M fuel named baseName ts g = some g' → Goes M g g' (outlinesOfTypes M baseName ts)
  | [], _, g, _, hg => by
    cases hg
    exact .stay g.state
  | t :: ts, baseName, g, g', hg => by
    obtain ⟨g₁, ht, hts⟩ := Option.bind_eq_some_iff.mp hg
    exact (generateType_goes h t _ false g g₁ ht).trans (generateAggregateTypeList_goes h ts baseName g₁ g' hts)

theorem generateTypesOf_goes (h : ∀ name g g', named name g = some g' → Goes M g g' []) :
    (ps : List StructureProperty) → (cppName : Bytes) → (g g' : CppGenerator) →
    generateTypesOf M fuel named cppName ps g = some g' → Goes M g g' (outlinesOfProperties M cppName ps)
  | [], _, g, _, hg => by
    cases hg
    exact .stay g.state
  | p :: ps, cppName, g, g', hg => by
    obtain ⟨g₁, hp, hps⟩ := Option.bind_eq_some_iff.mp hg
    exact (generateTypeOf_goes h p cppName g g₁ hp).trans (generateTypesOf_goes h ps cppName g₁ g' hps)

theorem generateTypeOf_goes (h : ∀ name g g', named name g = some g' → Goes M g g' []) :
    (p : StructureProperty) → (cppName : Bytes) → (g g' : CppGenerator) →
    generateTypeOf M fuel named cppName p g = some g' → Goes M g g' (outlinesOfProperty M cppName p)
  | ⟨_, type, _, _⟩, _, g, g', hg => generateType_goes h type _ false g g' hg

end

theorem generateRefs_goes (h : ∀ name g g', named name g = some g' → Goes M g g' []) {refs : List MetaType}
    (hg : refs.foldlM (fun g t => generateType M fuel named [] false t g) g = some g') :
    Goes M g g' (refs.flatMap (·.outlines M [] false)) := by
  induction refs generalizing g with
  | nil =>
    cases hg
    exact .stay _
  | cons t ts ih =>
    obtain ⟨g₁, ht, hts⟩ := Option.bind_eq_some_iff.mp hg
    exact (generateType_goes h t [] false g g₁ ht).trans (ih hts)

/-- A registered type gives rise to its outlines. -/
theorem generate_goes (h : ∀ name g g', named name g = some g' → Goes M g g' []) {t : NamedType}
    (hg : generate M fuel named t g = some g') : Goes M g g' (t.outlines M) ∧ t.Resolved M := by
  cases t with
  | enumeration e =>
    refine ⟨?_, trivial⟩
    unfold generate at hg
    unfold NamedType.outlines
    dsimp only at hg ⊢
    cases htype : e.type with
    | base kind =>
      rw [htype] at hg
      cases hg
      exact goes_declare g _
    | _ =>
      rw [htype] at hg
      cases hg
      exact .stay g.state
  | «structure» s =>
    unfold generate at hg
    obtain ⟨g₁, hrefs, hg⟩ := Option.bind_eq_some_iff.mp hg
    obtain ⟨g₂, hps, hs⟩ := Option.bind_eq_some_iff.mp hg
    obtain ⟨hdeclared, hresolved⟩ := declareStructure_goes hs
    exact ⟨((generateRefs_goes h hrefs).trans (generateTypesOf_goes h _ _ g₁ g₂ hps)).trans hdeclared, hresolved⟩
  | typeAlias a =>
    refine ⟨?_, trivial⟩
    unfold generate at hg
    obtain ⟨g₁, htype, hg⟩ := Option.bind_eq_some_iff.mp hg
    obtain ⟨c, -, hg⟩ := Option.bind_eq_some_iff.mp hg
    cases hg
    exact (generateType_goes h a.type _ true g g₁ htype).trans (goes_declare g₁ _)

theorem generateNamedType_goes : (depth : Nat) → (name : Bytes) → (g g' : CppGenerator) →
    generateNamedType M depth name g = some g' → Goes M g g' [] ∧ name ∈ g'.m_processedTypes
  | 0, _, _, _, h => by cases h
  | depth + 1, name, g, g', h => by
    rw [generateNamedType] at h
    split at h
    · next hprocessed =>
      cases h
      exact ⟨.stay g.state, List.contains_iff_mem.mp hprocessed⟩
    · next hnew =>
      obtain ⟨type, htype, h⟩ := Option.bind_eq_some_iff.mp h
      obtain ⟨g₁, hg₁, rfl⟩ := Option.map_eq_some_iff.mp h
      obtain ⟨hgoes, hresolved⟩ := generate_goes (fun name g g' hg => (generateNamedType_goes depth name g g' hg).1) hg₁
      have houtlines : outlinesFor M name = type.outlines M := by rw [outlinesFor, htype]; rfl
      rw [← houtlines] at hgoes
      refine ⟨hgoes.visit (fun hmem => hnew (List.contains_iff_mem.mpr hmem)) ⟨type, htype, hresolved⟩, ?_⟩
      exact hgoes.visited_subset List.mem_cons_self

theorem generateNamedTypes_goes {depth : Nat} {names : List Bytes}
    (h : names.foldlM (fun g name => generateNamedType M depth name g) g = some g') :
    Goes M g g' [] ∧ names ⊆ g'.m_processedTypes := by
  induction names generalizing g with
  | nil =>
    cases h
    exact ⟨.stay _, List.nil_subset _⟩
  | cons name names ih =>
    obtain ⟨g₁, hname, hnames⟩ := Option.bind_eq_some_iff.mp h
    obtain ⟨hfirst, hmem⟩ := generateNamedType_goes depth name g g₁ hname
    obtain ⟨hrest, hsub⟩ := ih hnames
    exact ⟨hfirst.trans hrest, List.cons_subset.mpr ⟨hrest.visited_subset hmem, hsub⟩⟩

theorem flatMap_outlinesFor (M : MetaModel) :
    (M.typeNames.filter fun name => !builtIn.contains name).flatMap (outlinesFor M) = M.outlines := by
  have hname : ∀ t ∈ M.types, outlinesFor M t.name = t.outlines M := by
    intro t ht
    rw [outlinesFor, MetaModel.typeForName_eq_some_iff.mpr ⟨ht, rfl⟩]
    rfl
  rw [MetaModel.typeNames, List.filter_map, List.flatMap_map, MetaModel.outlines]
  exact List.flatMap_congr fun t ht => hname t (List.mem_filter.mp ht).1

theorem generateTypes_outlines (h : generateTypes M fuel = some g) :
    (g.m_typesHeaderFileContent.map Declaration.outline).Perm M.outlines := by
  obtain ⟨hgoes, hall⟩ := generateNamedTypes_goes h
  have hfresh : ∀ name : Bytes, (!builtIn.contains name) = true ↔ name ∉ builtIn := fun name => by simp
  rw [← flatMap_outlinesFor]
  exact hgoes.all rfl hfresh M.nodup (fun name ⟨t, ht, _⟩ => MetaModel.mem_typeNames_iff.mpr ⟨t, ht⟩) hall

end Generator

/-- **The header declares what the types of the meta model give rise to, each once.**  So it defines no name
twice exactly when these names do not repeat. -/
theorem declared_once (M : MetaModel) (fuel : Nat) (g : CppGenerator) (h : generateTypes M fuel = some g) :
    (g.m_typesHeaderFileContent.map Declaration.outline).Perm M.outlines ∧
      ((g.m_typesHeaderFileContent.flatMap Declaration.declares).Nodup ↔
        (M.outlines.flatMap Outline.declares).Nodup) := by
  have houtlines := generateTypes_outlines h
  refine ⟨houtlines, ?_⟩
  rw [← (houtlines.flatMap_right _).nodup_iff, List.flatMap_map]
  simp only [declares_outline]

theorem symbolModel_declared_once : ∃ g, generateTypes symbolModel 4 = some g ∧
    (g.m_typesHeaderFileContent.map Declaration.outline).Perm (symbolModel.outlines) ∧
    (g.m_typesHeaderFileContent.flatMap Declaration.declares).Nodup := by
  obtain ⟨g, hg, -⟩ := generateTypes_leads symbolModel_layered (show ∀ name ∈ symbolModel.typeNames, symbolRank name + 1 < 4 by decide +kernel)
  obtain ⟨houtlines, hnodup⟩ := declared_once symbolModel 4 g hg
  exact ⟨g, hg, houtlines, hnodup.mpr (by decide +kernel)⟩

end Lsp.Metamodel
