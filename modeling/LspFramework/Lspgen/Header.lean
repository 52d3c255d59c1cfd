import LspFramework.Lib.Definitions
import LspFramework.Lspgen.MetaModel

/-!
# lspgen: the declarations of the header

`CppGenerator::generateTypes` goes through the named types and generates, before each one, the types it
refers to.  The header `types.h` is kept as its declarations, each with the types of its members as C++
type expressions; comments and initializers are left out.

* `cppTypeName`: the C++ type for a type of the meta model.
* `generateType`, `generateNamedType`: the types behind a type, each named one once.

The name of a structure literal is the base name that `generateType` met it with, so `cppTypeName`, which
looks it up by its address, takes the same base name.  `none` is a `value()` that is called on an error,
a mixin that is no structure, where the declaration is left unfinished, or fuel that is used up.
-/

namespace Lsp.Metamodel

open Chars Lsp.Json

/-! ## Names -/

/-- Letters, digits and underscores. -/
def isIdentifierChar (c : UInt8) : Bool := isalnum c || c == chr '_'

def upperCaseIdentifier (str : Bytes) : Bytes :=
  let str := if str.head? = some (chr '$') then str.tail else str
  let parts := (str.splitOn (chr '/')).filter (· ≠ [])
  let id := [chr '_'].intercalate (parts.map capitalizeString)
  id.map fun c => if isIdentifierChar c then c else chr '_'

/-- `s_baseTypeMapping` -/
def Kind.cppName : Kind → Bytes
  | .boolean => bytes "bool"
  | .string => bytes "String"
  | .integer => bytes "int"
  | .uinteger => bytes "uint"
  | .decimal => bytes "double"
  | .uri => bytes "Uri"
  | .documentUri => bytes "DocumentUri"
  | .regExp => bytes "String"
  | .null => bytes "Null"

/-- What `generateAggregateTypeList` appends for a structure literal: its properties that are not optional. -/
def MetaType.nameSuffix : MetaType → Bytes
  | .structureLiteral properties =>
    (properties.filter fun p => !p.isOptional).flatMap fun p => chr '_' :: capitalizeString p.name
  | _ => []

/-! ## C++ types -/

inductive CppType where
  | name (n : Bytes)
  | template (n : Bytes) (args : List CppType)

mutual

/-- The names in a type expression, those of templates apart. -/
def CppType.names : CppType → List Bytes
  | .name n => [n]
  | .template _ args => namesOfTypes args

def namesOfTypes : List CppType → List Bytes
  | [] => []
  | t :: ts => t.names ++ namesOfTypes ts

end

/-- `std::unique_ptr` and `std::vector` take types that are declared only. -/
def takesIncomplete (template : Bytes) : Bool :=
  template = bytes "std::unique_ptr" || template = bytes "Array"

mutual

/-- The names whose types must be complete for a member of the type. -/
def CppType.completeNames : CppType → List Bytes
  | .name n => [n]
  | .template n args => if takesIncomplete n then [] else completeNamesOfTypes args

def completeNamesOfTypes : List CppType → List Bytes
  | [] => []
  | t :: ts => t.completeNames ++ completeNamesOfTypes ts

end

inductive Declaration where
  /-- `enum class cppName`, and `cppNameEnum` over the base type. -/
  | enumeration (cppName : Bytes) (values : List Bytes) (baseType : Bytes)
  | structure (cppName : Bytes) (bases : List Bytes) (members : List (CppType × Bytes))
  | typeAlias (cppName : Bytes) (type : CppType)

namespace Declaration

def declares : Declaration → List Bytes
  | .enumeration cppName _ _ => [cppName, cppName ++ bytes "Enum"]
  | .structure cppName _ _ => [cppName]
  | .typeAlias cppName _ => [cppName]

def needs : Declaration → List Bytes
  | .enumeration _ _ baseType => [baseType]
  | .structure _ bases members => bases ++ members.flatMap fun m => m.1.completeNames
  | .typeAlias _ type => type.names

def mentions : Declaration → List Bytes
  | .enumeration _ _ baseType => [baseType]
  | .structure _ bases members => bases ++ members.flatMap fun m => m.1.names
  | .typeAlias _ type => type.names

end Declaration

def cpp : Definitions.Language Declaration Bytes where
  declares := Declaration.declares
  needs := Declaration.needs
  mentions := Declaration.mentions

section Generator

variable (M : MetaModel)

def isStringType : Nat → MetaType → Option Bool
  | _, .base kind => some (kind = .string || kind = .uri || kind = .documentUri || kind = .regExp)
  | 0, .reference _ => none
  | fuel + 1, .reference name =>
    match M.typeForName name with
    | some (.typeAlias typeAlias) => isStringType fuel typeAlias.type
    | some _ => some false
    | none => none
  | _, _ => some false

/-- `Enum` is appended to the name of an enumeration. -/
def referenceName (name : Bytes) : Option Bytes :=
  match M.typeForName name with
  | some (.enumeration _) => some (upperCaseIdentifier name ++ bytes "Enum")
  | some _ => some (upperCaseIdentifier name)
  | none => none

def MetaType.isNull : MetaType → Bool
  | .base .null => true
  | _ => false

def MetaType.isLSPAny : MetaType → Bool
  | .reference name => name = bytes "LSPAny"
  | _ => false

/-- The template for an `or` type of several types, of which one may be null, with the C++ types for them. -/
def orTemplate (typeList : List MetaType) (args : List CppType) : CppType :=
  match typeList.findIdx? MetaType.isNull with
  | none => .template (bytes "OneOf") args
  | some i =>
    .template (if typeList.length > 2 then bytes "NullOrOneOf" else bytes "NullOr") (args.eraseIdx i)

mutual

def cppTypeName (fuel : Nat) (baseName : Bytes) (isAlias : Bool) : MetaType → Option CppType
  | .base kind => some (.name kind.cppName)
  | .reference name => (referenceName M name).map .name
  | .array elementType =>
    if elementType.isLSPAny then some (.name (bytes "LSPArray"))
    else (cppTypeName fuel baseName false elementType).map fun t => .template (bytes "Array") [t]
  | .map keyType valueType => do
    let template := if ← isStringType M fuel keyType then bytes "Map" else bytes "std::unordered_map"
    let key ← cppTypeName fuel baseName false keyType
    let value ← cppTypeName fuel baseName false valueType
    return .template template [key, value]
  | .and _ => some (.name (bytes "LSPObject"))
  | .or typeList => do
    let args ← cppTypeNames fuel baseName typeList
    match typeList, args with
    | [], _ => none
    | [_], args => args.head?
    | typeList, args => return orTemplate typeList args
  | .tuple typeList =>
    (cppTypeNames fuel (if isAlias then baseName ++ bytes "_Element" else baseName) typeList).map
      (.template (bytes "Tuple"))
  | .structureLiteral _ => some (.name baseName)
  | .stringLiteral _ => some (.name (bytes "String"))
  | .integerLiteral _ => some (.name (bytes "int"))
  | .booleanLiteral _ => some (.name (bytes "bool"))

def cppTypeNames (fuel : Nat) (baseName : Bytes) : List MetaType → Option (List CppType)
  | [] => some []
  | t :: ts => do
    let name ← cppTypeName fuel (baseName ++ t.nameSuffix) false t
    let names ← cppTypeNames fuel baseName ts
    return name :: names

end

/-- An optional reference to a type that is being processed is a pointer. -/
def optionalTemplate (typesBeingProcessed : List Bytes) : MetaType → Bytes
  | .reference name => if typesBeingProcessed.contains name then bytes "std::unique_ptr" else bytes "Opt"
  | _ => bytes "Opt"

def MetaType.isLiteral : MetaType → Bool
  | .structureLiteral _ | .stringLiteral _ | .integerLiteral _ | .booleanLiteral _ => true
  | _ => false

/-- The member that `generateStructureProperties` declares for a property. -/
def memberFor (fuel : Nat) (typesBeingProcessed : List Bytes) (structureCppName : Bytes) (p : StructureProperty) :
    Option (CppType × Bytes) := do
  let type ← cppTypeName M fuel (structureCppName ++ capitalizeString p.name) false p.type
  return (if p.isOptional then .template (optionalTemplate typesBeingProcessed p.type) [type] else type, p.name)

/-- Members for all properties but the literal ones that the first base has already. -/
def membersFor (fuel : Nat) (typesBeingProcessed : List Bytes) (basePropertiesByName : List Bytes)
    (structureCppName : Bytes) (properties : List StructureProperty) : Option (List (CppType × Bytes)) :=
  (properties.filter fun p => !(p.type.isLiteral && basePropertiesByName.contains p.name)).mapM
    (memberFor M fuel typesBeingProcessed structureCppName)

def structureForRef : MetaType → Option Structure
  | .reference name =>
    match M.typeForName name with
    | some (.structure s) => some s
    | _ => none
  | _ => none

/-- The declaration that `generate(const Structure&)` writes; without one where a base or a mixin is no
structure. -/
def structureDeclaration (fuel : Nat) (typesBeingProcessed : List Bytes) (s : Structure) : Option Declaration := do
  let bases ← s.bases.mapM (structureForRef M)
  let mixins ← s.mixins.mapM (structureForRef M)
  let basePropertiesByName := (bases.head?.map fun b => b.properties.map (·.name)).getD []
  let mixedIn ← mixins.mapM fun m =>
    membersFor M fuel typesBeingProcessed basePropertiesByName (upperCaseIdentifier m.name) m.properties
  let own ← membersFor M fuel typesBeingProcessed basePropertiesByName (upperCaseIdentifier s.name) s.properties
  return .structure (upperCaseIdentifier s.name) (bases.map (·.name)) (mixedIn.flatten ++ own)

/-! ## The generator -/

structure CppGenerator where
  m_typesHeaderFileContent : List Declaration := []
  m_processedTypes : List Bytes := [bytes "LSPArray", bytes "LSPObject", bytes "LSPAny"]
  m_typesBeingProcessed : List Bytes := []

def CppGenerator.declare (g : CppGenerator) (d : Declaration) : CppGenerator :=
  { g with m_typesHeaderFileContent := g.m_typesHeaderFileContent ++ [d] }

variable (fuel : Nat) (generateNamedType : Bytes → CppGenerator → Option CppGenerator)

/-- The end of `generate(const Structure&)`. -/
def declareStructure (s : Structure) (g : CppGenerator) : Option CppGenerator :=
  (structureDeclaration M fuel g.m_typesBeingProcessed s).map g.declare

mutual

def generateType (baseName : Bytes) (isAlias : Bool) : MetaType → CppGenerator → Option CppGenerator
  | .reference name, g => generateNamedType name g
  | .array elementType, g => generateType baseName false elementType g
  | .map keyType valueType, g =>
    (generateType baseName false keyType g).bind (generateType baseName false valueType)
  | .and typeList, g =>
    generateAggregateTypeList (if isAlias then baseName ++ bytes "_Base" else baseName) typeList g
  | .or typeList, g => generateAggregateTypeList baseName typeList g
  | .tuple typeList, g =>
    generateAggregateTypeList (if isAlias then baseName ++ bytes "_Element" else baseName) typeList g
  | .structureLiteral properties, g =>
    (generateTypesOf (upperCaseIdentifier baseName) properties g).bind
      (declareStructure M fuel { name := baseName, properties })
  | .base _, g => some g
  | .stringLiteral _, g => some g
  | .integerLiteral _, g => some g
  | .booleanLiteral _, g => some g

def generateAggregateTypeList (baseName : Bytes) : List MetaType → CppGenerator → Option CppGenerator
  | [], g => some g
  | t :: ts, g =>
    (generateType (baseName ++ t.nameSuffix) false t g).bind (generateAggregateTypeList baseName ts)

/-- The types of the properties of a structure. -/
def generateTypesOf (structureCppName : Bytes) : List StructureProperty → CppGenerator → Option CppGenerator
  | [], g => some g
  | p :: ps, g => (generateTypeOf structureCppName p g).bind (generateTypesOf structureCppName ps)

def generateTypeOf (structureCppName : Bytes) : StructureProperty → CppGenerator → Option CppGenerator
  | ⟨name, type, _, _⟩, g => generateType (structureCppName ++ capitalizeString name) false type g

end

/-- The three overloads of `generate`.  An enumeration that is over no base type is not declared. -/
def generate : NamedType → CppGenerator → Option CppGenerator
  | .enumeration e, g =>
    match e.type with
    | .base kind =>
      some (g.declare (.enumeration (upperCaseIdentifier e.name) (e.values.map fun v => capitalizeString v.name)
        kind.cppName))
    | _ => some g
  | .structure s, g => do
    let g ← (s.bases ++ s.mixins).foldlM (fun g t => generateType M fuel generateNamedType [] false t g) g
    let g ← generateTypesOf M fuel generateNamedType (upperCaseIdentifier s.name) s.properties g
    declareStructure M fuel s g
  | .typeAlias a, g => do
    let typeAliasCppName := upperCaseIdentifier a.name
    let g ← generateType M fuel generateNamedType typeAliasCppName true a.type g
    let type ← cppTypeName M fuel typeAliasCppName true a.type
    return g.declare (.typeAlias typeAliasCppName type)

end Generator

def generateNamedType (M : MetaModel) : Nat → Bytes → CppGenerator → Option CppGenerator
  | 0, _, _ => none
  | fuel + 1, name, g =>
    if g.m_processedTypes.contains name then some g
    else
      (M.typeForName name).bind fun type =>
        (generate M fuel (generateNamedType M fuel) type
          { g with
            m_processedTypes := name :: g.m_processedTypes
            m_typesBeingProcessed := type.name :: g.m_typesBeingProcessed }).map fun g =>
          { g with m_typesBeingProcessed := g.m_typesBeingProcessed.erase type.name }

def generateTypes (M : MetaModel) (fuel : Nat) : Option CppGenerator :=
  M.typeNames.foldlM (fun g name => generateNamedType M fuel name g) {}

end Lsp.Metamodel
