import LspFramework.Lib.Fallible
import LspFramework.Lspgen.Generator

/-!
# What the generated tables and functions name

The code for a structure is put together from parts that depend on one property, or one base, each.

* `MetaModel.basesOf`, `MetaModel.allProperties`: the direct bases, and the properties of the mixins and
  the own ones, in the order of the generated lines.
* `MetaModel.Reads s key`: `key` is read with `get` by the `FromJson` function of `s`, its bases' included.
* `MetaModel.Required s key`: `key` is in the table `requiredProperties` of `s`.
* `generate_fromJson`, `mem_requiredProperties`, `mem_literalProperties`: the generated code in these terms.
-/

namespace Lsp.Lspgen

open Chars Fallible Lsp.Json

/-! ## In terms of the meta model -/

namespace MetaModel

variable (M : MetaModel)

def basesOf (s : Structure) : List Structure := s.bases.filterMap M.structureForRef

def mixinsOf (s : Structure) : List Structure := s.mixins.filterMap M.structureForRef

/-- The properties the code for `s` is generated from. -/
def allProperties (s : Structure) : List StructureProperty :=
  (M.mixinsOf s).flatMap (·.properties) ++ s.properties

/-- The names of the first base's own properties. -/
def inheritedNames (s : Structure) : List Bytes :=
  match s.bases.head?.bind M.structureForRef with
  | some base => base.properties.map (·.name)
  | none => []

/-- The literal properties that are not read, since the first base reads them. -/
def InheritedLiteral (s : Structure) (p : StructureProperty) : Prop :=
  p.type.isLiteral = true ∧ p.name ∈ M.inheritedNames s

inductive Reads : Structure → Bytes → Prop
  | own {s : Structure} {p : StructureProperty} : p ∈ M.allProperties s → p.isOptional = false →
      ¬ M.InheritedLiteral s p → Reads s p.name
  | base {s b : Structure} {key : Bytes} : b ∈ M.basesOf s → Reads b key → Reads s key

/-- A property of a direct base itself, or one of the structure or its mixins that has no literal value. -/
def Required (s : Structure) (key : Bytes) : Prop :=
  (∃ b ∈ M.basesOf s, ∃ p ∈ b.properties, p.isOptional = false ∧ p.name = key) ∨
    ∃ p ∈ M.allProperties s, p.isOptional = false ∧ p.type.literalValue = none ∧ p.name = key

/-- A required key with two literals that no value equals both. -/
def Contradictory (s : Structure) : Prop :=
  ∃ p ∈ M.allProperties s, ∃ q ∈ M.allProperties s, p.name = q.name ∧ M.Required s p.name ∧
    ∃ l m, p.type.literalValue = some l ∧ q.type.literalValue = some m ∧
      l.tableValue.eq m.tableValue = false

/-- Code is generated for every structure. -/
def Complete : Prop :=
  ∀ name s, M.typeForName name = some (.structure s) → ∃ code, generate M s = .ok code

end MetaModel

/-! ## The lines of one property -/

def fromJsonLines (inherited : List Bytes) (p : StructureProperty) : List FromJsonLine :=
  (if p.isOptional then [.ifFind p.name]
    else if p.type.isLiteral && inherited.contains p.name then [] else [.get p.name]) ++
  match p.type.literalValue with
  | some literal => [.returnUnless p.name literal]
  | none => []

def toJsonLines (inherited : List Bytes) (p : StructureProperty) : List ToJsonLine :=
  (if p.isOptional then [.ifValue p.name] else []) ++
    if p.type.isLiteral && inherited.contains p.name then [] else [.assign p.name]

def requiredKeys (p : StructureProperty) : List Bytes :=
  if !p.isOptional && p.type.literalValue.isNone then [p.name] else []

def literalEntries (p : StructureProperty) : List (Bytes × Literal) :=
  match p.type.literalValue with
  | some literal => [(p.name, literal)]
  | none => []

theorem generateProperty_fromJson (inherited : List Bytes) (code : Generated) (p : StructureProperty) :
    (generateProperty inherited code p).fromJson = code.fromJson ++ fromJsonLines inherited p := by
  unfold generateProperty fromJsonLines
  cases p.isOptional <;> cases p.type.literalValue <;>
    cases p.type.isLiteral && inherited.contains p.name <;> simp

theorem generateProperty_toJson (inherited : List Bytes) (code : Generated) (p : StructureProperty) :
    (generateProperty inherited code p).toJson = code.toJson ++ toJsonLines inherited p := by
  unfold generateProperty toJsonLines
  cases p.isOptional <;> cases p.type.literalValue <;>
    cases p.type.isLiteral && inherited.contains p.name <;> simp

theorem generateProperty_requiredProperties (inherited : List Bytes) (code : Generated)
    (p : StructureProperty) :
    (generateProperty inherited code p).requiredProperties = code.requiredProperties ++ requiredKeys p := by
  unfold generateProperty requiredKeys
  cases p.isOptional <;> cases p.type.literalValue <;>
    cases p.type.isLiteral && inherited.contains p.name <;> simp

theorem generateProperty_literalProperties (inherited : List Bytes) (code : Generated)
    (p : StructureProperty) :
    (generateProperty inherited code p).literalProperties = code.literalProperties ++ literalEntries p := by
  unfold generateProperty literalEntries
  cases p.isOptional <;> cases p.type.literalValue <;>
    cases p.type.isLiteral && inherited.contains p.name <;> simp

/-- What each property appends, the loop over the properties appends. -/
theorem generateStructureProperties_append {β : Type} {inherited : List Bytes} (proj : Generated → List β)
    (g : StructureProperty → List β)
    (h : ∀ code p, proj (generateProperty inherited code p) = proj code ++ g p)
    (properties : List StructureProperty) (code : Generated) :
    proj (generateStructureProperties properties inherited code) = proj code ++ properties.flatMap g := by
  unfold generateStructureProperties
  induction properties generalizing code with
  | nil => simp
  | cons p ps ih => rw [List.foldl_cons, ih, h, List.flatMap_cons, List.append_assoc]

/-! ## The code for a structure -/

section Append

variable {M : MetaModel} {β : Type} {proj : Generated → List β} {gb : Structure → List β}
  {gp : StructureProperty → List β}

theorem generateBase_eq_ok {code code' : Generated} {ref : TypeRef} {b : Structure}
    (h : generateBase M code ref = .ok (code', b)) : M.structureForRef ref = some b := by
  unfold generateBase at h
  split at h
  · next base hbase =>
    cases h
    exact hbase
  · cases h

theorem generateBase_code {code code' : Generated} {ref : TypeRef} {b : Structure}
    (h : generateBase M code ref = .ok (code', b)) :
    code' = { code with
      toJson := code.toJson ++ [.base b.name]
      fromJson := code.fromJson ++ [.base b.name]
      requiredProperties := code.requiredProperties ++ requiredNames b.properties } := by
  unfold generateBase at h
  rw [generateBase_eq_ok h] at h
  cases h
  rfl

theorem generateBases_cons_eq_ok {first : TypeRef} {rest : List TypeRef} {code : Generated}
    {names : List Bytes} (h : generateBases M (first :: rest) = .ok (code, names)) :
    ∃ code₁ base, generateBase M {} first = .ok (code₁, base) ∧
      rest.foldlM (fun code ref => (generateBase M code ref).map Prod.fst) code₁ = .ok code ∧
      names = base.properties.map (·.name) := by
  rw [generateBases] at h
  obtain ⟨⟨code₁, base⟩, hfirst, h⟩ := bind_eq_ok_iff.mp h
  obtain ⟨code', hrest, h⟩ := bind_eq_ok_iff.mp h
  cases h
  exact ⟨code₁, base, hfirst, hrest, rfl⟩

theorem generateBases_append (h0 : proj {} = [])
    (hb : ∀ code ref code' b, generateBase M code ref = .ok (code', b) → proj code' = proj code ++ gb b)
    {refs : List TypeRef} {code : Generated} {names : List Bytes}
    (h : generateBases M refs = .ok (code, names)) :
    proj code = (refs.filterMap M.structureForRef).flatMap gb := by
  have hstep : ∀ code ref code', (generateBase M code ref).map Prod.fst = .ok code' →
      proj code' = proj code ++ (M.structureForRef ref).toList.flatMap gb := by
    intro code ref code' hcode
    cases hbase : generateBase M code ref with
    | error e =>
      rw [hbase] at hcode
      cases hcode
    | ok r =>
      rw [hbase] at hcode
      cases hcode
      rw [generateBase_eq_ok hbase, hb code ref r.1 r.2 hbase]
      simp
  rw [flatMap_filterMap]
  cases refs with
  | nil =>
    cases h
    exact h0
  | cons first rest =>
    obtain ⟨code₁, base, hfirst, hrest, -⟩ := generateBases_cons_eq_ok h
    rw [foldlM_append proj _ hstep hrest, hb {} first code₁ base hfirst, h0, List.flatMap_cons,
      generateBase_eq_ok hfirst]
    simp

theorem generateBases_names {s : Structure} {code : Generated} {names : List Bytes}
    (h : generateBases M s.bases = .ok (code, names)) : names = M.inheritedNames s := by
  unfold MetaModel.inheritedNames
  cases hrefs : s.bases with
  | nil =>
    rw [hrefs] at h
    cases h
    rfl
  | cons first rest =>
    rw [hrefs] at h
    obtain ⟨code₁, base, hfirst, -, hnames⟩ := generateBases_cons_eq_ok h
    simp [generateBase_eq_ok hfirst, hnames]

theorem generateMixin_append {inherited : List Bytes}
    (hp : ∀ code p, proj (generateProperty inherited code p) = proj code ++ gp p) {name : Bytes}
    {code code' : Generated} {ref : TypeRef} (h : generateMixin M name inherited code ref = .ok code') :
    proj code' = proj code ++ (M.structureForRef ref).toList.flatMap fun m => m.properties.flatMap gp := by
  unfold generateMixin at h
  cases ref with
  | other => cases h
  | reference n =>
    simp only at h
    split at h
    · cases h
    · next mixin hmixin =>
      cases h
      rw [generateStructureProperties_append proj gp hp]
      simp [MetaModel.structureForRef, hmixin]
    · cases h

/-- What each base and each property appends to a part of the code makes that part up. -/
theorem generate_append {s : Structure} {code : Generated} (h : generate M s = .ok code) (h0 : proj {} = [])
    (hb : ∀ code ref code' b, generateBase M code ref = .ok (code', b) → proj code' = proj code ++ gb b)
    (hp : ∀ code p, proj (generateProperty (M.inheritedNames s) code p) = proj code ++ gp p) :
    proj code = (M.basesOf s).flatMap gb ++ (M.allProperties s).flatMap gp := by
  unfold generate at h
  obtain ⟨⟨code₁, names⟩, hbases, h⟩ := bind_eq_ok_iff.mp h
  obtain ⟨code₂, hmixins, h⟩ := bind_eq_ok_iff.mp h
  obtain rfl := generateBases_names hbases
  cases h
  have hcode₂ := foldlM_append proj _ (fun c ref c' hc => generateMixin_append hp hc) hmixins
  rw [generateStructureProperties_append proj gp hp, hcode₂, generateBases_append h0 hb hbases,
    MetaModel.allProperties, MetaModel.mixinsOf, List.flatMap_append, List.append_assoc,
    List.flatMap_assoc, flatMap_filterMap _ (fun m : Structure => m.properties.flatMap gp)]
  rfl

end Append

variable {M : MetaModel} {s : Structure} {code : Generated}

/-- The calls of the bases' functions, then the lines of the properties. -/
theorem generate_fromJson (h : generate M s = .ok code) :
    code.fromJson = (M.basesOf s).map (fun b => .base b.name) ++
      (M.allProperties s).flatMap (fromJsonLines (M.inheritedNames s)) := by
  have hb : ∀ code ref code' b, generateBase M code ref = .ok (code', b) →
      code'.fromJson = code.fromJson ++ [.base b.name] := by
    intro code ref code' b hbase
    rw [generateBase_code hbase]
  rw [generate_append h rfl hb (generateProperty_fromJson _), ← List.map_eq_flatMap]

theorem generate_toJson (h : generate M s = .ok code) :
    code.toJson = (M.basesOf s).map (fun b => .base b.name) ++
      (M.allProperties s).flatMap (toJsonLines (M.inheritedNames s)) := by
  have hb : ∀ code ref code' b, generateBase M code ref = .ok (code', b) →
      code'.toJson = code.toJson ++ [.base b.name] := by
    intro code ref code' b hbase
    rw [generateBase_code hbase]
  rw [generate_append h rfl hb (generateProperty_toJson _), ← List.map_eq_flatMap]

theorem mem_requiredProperties (h : generate M s = .ok code) (key : Bytes) :
    key ∈ code.requiredProperties ↔ M.Required s key := by
  have hb : ∀ code ref code' b, generateBase M code ref = .ok (code', b) →
      code'.requiredProperties = code.requiredProperties ++ requiredNames b.properties := by
    intro code ref code' b hbase
    rw [generateBase_code hbase]
  rw [generate_append h rfl hb (generateProperty_requiredProperties _), List.mem_append,
    List.mem_flatMap, List.mem_flatMap, MetaModel.Required]
  refine or_congr ?_ ?_
  · simp [requiredNames, and_assoc]
  · refine exists_congr fun p => and_congr_right fun _ => ?_
    unfold requiredKeys
    cases p.isOptional <;> cases p.type.literalValue <;> simp [eq_comm]

theorem mem_literalProperties (h : generate M s = .ok code) (key : Bytes) (l : Literal) :
    (key, l) ∈ code.literalProperties ↔
      ∃ p ∈ M.allProperties s, p.type.literalValue = some l ∧ p.name = key := by
  have hb : ∀ code ref code' b, generateBase M code ref = .ok (code', b) →
      code'.literalProperties = code.literalProperties ++ [] := by
    intro code ref code' b hbase
    rw [generateBase_code hbase, List.append_nil]
  rw [generate_append h rfl hb (generateProperty_literalProperties _), List.mem_append, List.mem_flatMap,
    List.mem_flatMap]
  refine (or_iff_right (by simp)).trans (exists_congr fun p => and_congr_right fun _ => ?_)
  unfold literalEntries
  cases p.type.literalValue <;> simp [eq_comm, and_comm]

theorem base_notMem_fromJsonLines (inherited : List Bytes) (p : StructureProperty) (name : Bytes) :
    .base name ∉ fromJsonLines inherited p := by
  unfold fromJsonLines
  cases p.isOptional <;> cases p.type.literalValue <;>
    cases p.type.isLiteral && inherited.contains p.name <;> simp

theorem base_mem_fromJson (h : generate M s = .ok code) (name : Bytes) :
    .base name ∈ code.fromJson ↔ ∃ b ∈ M.basesOf s, b.name = name := by
  rw [generate_fromJson h, List.mem_append, List.mem_map, List.mem_flatMap]
  refine (or_iff_left ?_).trans (by simp)
  rintro ⟨p, -, hp⟩
  exact base_notMem_fromJsonLines _ p name hp

theorem get_mem_fromJson (h : generate M s = .ok code) (key : Bytes) :
    .get key ∈ code.fromJson ↔
      ∃ p ∈ M.allProperties s, p.isOptional = false ∧ ¬ M.InheritedLiteral s p ∧ p.name = key := by
  rw [generate_fromJson h, List.mem_append, List.mem_map, List.mem_flatMap]
  refine (or_iff_right (by simp)).trans (exists_congr fun p => and_congr_right fun _ => ?_)
  have hinh : (p.type.isLiteral && (M.inheritedNames s).contains p.name) = true ↔
      M.InheritedLiteral s p := by
    rw [Bool.and_eq_true, List.contains_iff_mem, MetaModel.InheritedLiteral]
  rw [← hinh]
  unfold fromJsonLines
  cases p.isOptional <;> cases p.type.literalValue <;>
    cases p.type.isLiteral && (M.inheritedNames s).contains p.name <;> simp [eq_comm]

end Lsp.Lspgen
